import DomQuery.Proofs.Arena.Vacancy
import DomQuery.Proofs.Dom.Reachable
import Mathlib.Data.Nat.Find

/-!
# The first document

A query that is given no context begins at the first document.  The first document is looked up in
the order of the slots (`firstDocument?_eq_some_iff`), which is the order in which the documents
were created as long as no slot is used a second time.  But a document that goes into a vacated slot
comes before all documents behind that slot, although these are older.

To tell when that happens, a run of edits is given a time scale: `LivesSince edits time document`
says that the document was created by the edit at the time and has been live since.  Every live
document has one such time (`isDocument_iff_exists_livesSince`, `LivesSince.time_eq`).  The first
document is the oldest one if and only if no live document was put into a vacant slot before it, and
as long as it lives, the only edit that changes the first document is the creation of a document in
such a slot (`tellsDocuments_after`).
-/

namespace DomQuery.Dom

/-! ### Documents in the order of the slots -/

section Slots

variable {dom other : Dom} {document : Handle}

theorem isDocument_iff_exists (dom : Dom) (node : Handle) : dom.isDocument node = true ↔
    ∃ value, dom.nodes.get? node = some value ∧ value.payload.isDocument = true := by
  rw [isDocument, payload?, Option.any_map, Option.any_eq_true]

theorem contains_of_isDocument (h : dom.isDocument document = true) :
    dom.contains document = true := by
  obtain ⟨value, hvalue, -⟩ := (dom.isDocument_iff_exists document).mp h
  rw [contains_eq_isSome, hvalue, Option.isSome_some]

/-- Two documents do not share a slot. -/
theorem eq_of_isDocument {first second : Handle} (hfirst : dom.isDocument first = true)
    (hsecond : dom.isDocument second = true) (hindex : first.index = second.index) :
    first = second := by
  obtain ⟨value, hvalue, -⟩ := (dom.isDocument_iff_exists first).mp hfirst
  obtain ⟨other, hother, -⟩ := (dom.isDocument_iff_exists second).mp hsecond
  exact dom.nodes.eq_of_index_eq hvalue hother hindex

theorem firstDocument?_eq_none_iff (dom : Dom) :
    dom.firstDocument? = none ↔ ∀ node, dom.isDocument node = false := by
  rw [firstDocument?, Option.map_eq_none_iff, List.find?_eq_none]
  constructor
  · intro hnone node
    by_contra htrue
    rw [Bool.not_eq_false, isDocument_iff_exists] at htrue
    obtain ⟨value, hvalue, hdocument⟩ := htrue
    exact hnone _ (dom.nodes.mem_toList hvalue) hdocument
  · rintro hnone ⟨node, value⟩ hmem hdocument
    have htrue := (dom.isDocument_iff_exists node).mpr
      ⟨value, (dom.nodes.mem_toList_iff node value).mp hmem, hdocument⟩
    rw [hnone node] at htrue
    exact absurd htrue (by simp)

/-- The first document is a document, and it is in front of all others. -/
theorem firstDocument?_le (h : dom.firstDocument? = some document) :
    dom.isDocument document = true ∧
      ∀ other, dom.isDocument other = true → document.index ≤ other.index := by
  obtain ⟨⟨handle, value⟩, hfound, rfl⟩ := Option.map_eq_some_iff.mp h
  obtain ⟨hdocument, before, after, hsplit, hbefore⟩ := List.find?_eq_some_iff_append.mp hfound
  have hget : dom.nodes.get? handle = some value :=
    (dom.nodes.mem_toList_iff handle value).mp (List.mem_of_find?_eq_some hfound)
  refine ⟨(dom.isDocument_iff_exists handle).mpr ⟨value, hget, hdocument⟩, ?_⟩
  intro other hother
  obtain ⟨found, hfoundGet, hfoundDocument⟩ := (dom.isDocument_iff_exists other).mp hother
  have hlisted := dom.nodes.mem_toList hfoundGet
  have hsorted := dom.nodes.pairwise_toList
  rw [hsplit] at hlisted hsorted
  rcases List.mem_append.mp hlisted with hleft | hright
  · -- in front of the first document there is none
    have hnot := hbefore _ hleft
    rw [hfoundDocument] at hnot
    exact absurd hnot (by simp)
  · rcases List.mem_cons.mp hright with heq | hright
    · rw [← congrArg Prod.fst heq]
    · have hrest := (List.pairwise_append.mp hsorted).2.1
      exact (List.rel_of_pairwise_cons hrest hright).le

theorem firstDocument?_eq_some_iff : dom.firstDocument? = some document ↔
    dom.isDocument document = true ∧
      ∀ other, dom.isDocument other = true → document.index ≤ other.index := by
  refine ⟨firstDocument?_le, ?_⟩
  rintro ⟨hdocument, hfirst⟩
  cases hfound : dom.firstDocument? with
  | none =>
      rw [(dom.firstDocument?_eq_none_iff.mp hfound) document] at hdocument
      exact absurd hdocument (by simp)
  | some found =>
      obtain ⟨hfoundDocument, hleast⟩ := firstDocument?_le hfound
      have hindex := Nat.le_antisymm (hleast document hdocument) (hfirst found hfoundDocument)
      rw [eq_of_isDocument hfoundDocument hdocument hindex]

end Slots

/-! ### What an edit does to the documents -/

section Step

variable {dom : Dom}

theorem isDocument_congr {other : Dom} {node : Handle}
    (h : other.payload? node = dom.payload? node) :
    other.isDocument node = dom.isDocument node := by
  rw [isDocument, h, isDocument]

theorem isDocument_modifyElement (dom : Dom) (target : Handle) (f : Element → Element)
    (node : Handle) : (dom.modifyElement target f).isDocument node = dom.isDocument node := by
  rw [isDocument, payload?_modifyElement, isDocument]
  split
  · cases dom.payload? node with
    | none => rfl
    | some payload => cases payload <;> rfl
  · rfl

theorem isDocument_create (dom : Dom) (payload : Payload) (node : Handle) :
    (dom.create payload).2.isDocument node =
      if node = (dom.create payload).1 then payload.isDocument else dom.isDocument node := by
  rw [isDocument, payload?_create]
  split <;> rfl

theorem isDocument_create_fst (dom : Dom) (payload : Payload) :
    dom.isDocument (dom.create payload).1 = false := by
  by_contra htrue
  rw [Bool.not_eq_false] at htrue
  have hlive := contains_of_isDocument htrue
  rw [contains_create_fst] at hlive
  exact absurd hlive (by simp)

/-- Creating a node of another kind does not change which nodes are documents. -/
theorem isDocument_create_of_false {payload : Payload} (h : payload.isDocument = false)
    (node : Handle) : (dom.create payload).2.isDocument node = dom.isDocument node := by
  rw [isDocument_create, h]
  split
  · next hnew => rw [hnew, isDocument_create_fst]
  · rfl

/-- An edit makes no documents but those that it creates, and documents that are still live stay
documents. -/
theorem isDocument_apply_of_ne {e : Edit} (he : e ≠ .createDocument) (node : Handle) :
    (dom.apply e).isDocument node = true ↔
      dom.isDocument node = true ∧ (dom.apply e).contains node = true := by
  have hkeep : ∀ {other : Dom}, other.isDocument node = dom.isDocument node →
      (other.isDocument node = true ↔
        dom.isDocument node = true ∧ other.contains node = true) := by
    intro other hsame
    rw [← hsame]
    exact (and_iff_left_of_imp contains_of_isDocument).symm
  cases e with
  | createDocument => exact absurd rfl he
  | createElement tagName attributes => exact hkeep (isDocument_create_of_false rfl node)
  | createText data => exact hkeep (isDocument_create_of_false rfl node)
  | createComment data => exact hkeep (isDocument_create_of_false rfl node)
  | setAttribute target name value => exact hkeep (dom.isDocument_modifyElement target _ node)
  | removeAttribute target name => exact hkeep (dom.isDocument_modifyElement target _ node)
  | appendChild parent child => exact hkeep (isDocument_congr (dom.payload?_appendChild _ _ node))
  | insertBefore parent child reference =>
      exact hkeep (isDocument_congr (dom.payload?_insertBefore _ _ node _))
  | removeChild parent child => exact hkeep (isDocument_congr (dom.payload?_removeChild _ _ node))
  | dropSubtree top =>
      rcases dom.payload?_dropSubtree top node with hnone | hsame
      · refine iff_of_false (by simp [apply, isDocument, hnone]) fun hlive => ?_
        rw [apply, contains_eq_isSome_payload?, hnone] at hlive
        exact absurd hlive.2 (by simp)
      · exact hkeep (isDocument_congr hsame)

theorem isDocument_createDocument_iff (dom : Dom) (node : Handle) :
    (dom.apply .createDocument).isDocument node = true ↔
      node = dom.createDocument.1 ∨ dom.isDocument node = true := by
  change (dom.create .document).2.isDocument node = true ↔
    node = (dom.create .document).1 ∨ dom.isDocument node = true
  rw [isDocument_create]
  split
  · next hnew => simp [hnew, Payload.isDocument]
  · next hold => simp [hold]

/-- After an edit there are the document that it creates, and the documents from before as far as
they are live. -/
theorem isDocument_apply_iff (dom : Dom) (e : Edit) (node : Handle) :
    (dom.apply e).isDocument node = true ↔
      (e = .createDocument ∧ node = dom.createDocument.1) ∨
        (dom.isDocument node = true ∧ (dom.apply e).contains node = true) := by
  by_cases he : e = .createDocument
  · subst he
    have hlive : dom.isDocument node = true → (dom.apply .createDocument).contains node = true :=
      fun hdocument => contains_of_isDocument
        ((dom.isDocument_createDocument_iff node).mpr (Or.inr hdocument))
    rw [isDocument_createDocument_iff, and_iff_left_of_imp hlive, and_iff_right rfl]
  · rw [isDocument_apply_of_ne he, or_iff_right fun hnew => he hnew.1]

/-- As long as the first document lives, it is replaced by a new document that goes into a slot
before it, and by nothing else. -/
theorem firstDocument?_apply {document : Handle} {e : Edit}
    (hfirst : dom.firstDocument? = some document)
    (hlive : (dom.apply e).contains document = true) :
    (dom.apply e).firstDocument? =
      some (if e = .createDocument ∧ dom.createDocument.1.index < document.index
        then dom.createDocument.1 else document) := by
  obtain ⟨hdocument, hleast⟩ := firstDocument?_eq_some_iff.mp hfirst
  rw [firstDocument?_eq_some_iff]
  by_cases he : e = .createDocument
  · subst he
    simp only [isDocument_createDocument_iff, true_and]
    split
    · next hbefore =>
        refine ⟨Or.inl rfl, ?_⟩
        rintro other (rfl | hother)
        · exact le_rfl
        · exact hbefore.le.trans (hleast other hother)
    · next hbehind =>
        refine ⟨Or.inr hdocument, ?_⟩
        rintro other (rfl | hother)
        · exact Nat.le_of_not_lt hbehind
        · exact hleast other hother
  · rw [if_neg fun hnew => he hnew.1]
    refine ⟨(isDocument_apply_of_ne he document).mpr ⟨hdocument, hlive⟩, fun other hother => ?_⟩
    exact hleast other ((isDocument_apply_of_ne he other).mp hother).1

end Step

/-! ### The times at which documents were created -/

/-- The state after the edits, permitted or not. -/
def after (edits : List Edit) : Dom :=
  edits.foldl Dom.apply Dom.empty

/-- The document was created by the edit at the time, and has been live since. -/
structure LivesSince (edits : List Edit) (time : Nat) (document : Handle) : Prop where
  created : edits[time]? = some .createDocument
  handle_eq : (after (edits.take time)).createDocument.1 = document
  lives : ∀ later, time < later → later ≤ edits.length →
    (after (edits.take later)).contains document = true

/-- No live document was created before this one, which was created at the time. -/
structure Oldest (edits : List Edit) (time : Nat) (document : Handle) : Prop where
  livesSince : LivesSince edits time document
  le : ∀ {other : Nat} {younger : Handle}, LivesSince edits other younger → time ≤ other

theorem after_concat (edits : List Edit) (e : Edit) :
    after (edits ++ [e]) = (after edits).apply e := by
  rw [after, List.foldl_concat, after]

section Times

variable {edits : List Edit} {e : Edit} {time : Nat} {document : Handle}

theorem LivesSince.time_lt (h : LivesSince edits time document) : time < edits.length :=
  (List.getElem?_eq_some_iff.mp h.created).choose

/-- After one more edit, the documents that are still live have been live since the same times, and
the edit can have created one. -/
theorem livesSince_concat_iff : LivesSince (edits ++ [e]) time document ↔
    (time = edits.length ∧ e = .createDocument ∧ (after edits).createDocument.1 = document) ∨
      (LivesSince edits time document ∧ ((after edits).apply e).contains document = true) := by
  have htake : ∀ {early : Nat}, early ≤ edits.length →
      (edits ++ [e]).take early = edits.take early := fun hle => List.take_append_of_le_length hle
  have hwhole : (edits ++ [e]).take (edits.length + 1) = edits ++ [e] := by
    rw [List.take_of_length_le (by simp)]
  constructor
  · intro h
    have htime := h.time_lt
    rw [List.length_append, List.length_singleton, Nat.lt_succ_iff_lt_or_eq] at htime
    obtain ⟨hcreated, hhandle, hlives⟩ := h
    rcases htime with hlt | rfl
    · rw [List.getElem?_append_left hlt] at hcreated
      rw [htake hlt.le] at hhandle
      refine Or.inr ⟨⟨hcreated, hhandle, fun later hlater hle => ?_⟩, ?_⟩
      · rw [← htake hle]
        exact hlives later hlater (by simp; omega)
      · rw [← after_concat, ← hwhole]
        exact hlives _ (by omega) (by simp)
    · rw [List.getElem?_concat_length, Option.some.injEq] at hcreated
      rw [List.take_left] at hhandle
      exact Or.inl ⟨rfl, hcreated, hhandle⟩
  · rintro (⟨rfl, rfl, hhandle⟩ | ⟨h, hlive⟩)
    · refine ⟨List.getElem?_concat_length, by rwa [List.take_left], fun later hlater hle => ?_⟩
      obtain rfl : later = edits.length + 1 := by
        rw [List.length_append, List.length_singleton] at hle
        omega
      rw [hwhole, after_concat, ← hhandle]
      exact contains_of_isDocument ((isDocument_createDocument_iff _ _).mpr (Or.inl rfl))
    · have hlt := h.time_lt
      refine ⟨by rw [List.getElem?_append_left hlt, h.created], by rw [htake hlt.le, h.handle_eq],
        fun later hlater hle => ?_⟩
      rcases Nat.lt_or_ge edits.length later with hend | hearly
      · obtain rfl : later = edits.length + 1 := by
          rw [List.length_append, List.length_singleton] at hle
          omega
        rwa [hwhole, after_concat]
      · rw [htake hearly]
        exact h.lives later hlater hearly

/-- The documents are the nodes that have been live since they were created as documents. -/
theorem isDocument_iff_exists_livesSince (edits : List Edit) (document : Handle) :
    (after edits).isDocument document = true ↔ ∃ time, LivesSince edits time document := by
  induction edits using List.reverseRecOn with
  | nil =>
      refine iff_of_false (fun hdocument => ?_) fun ⟨time, h⟩ => absurd h.time_lt (by simp)
      have hlive := contains_of_isDocument hdocument
      rw [after, List.foldl_nil, contains_empty] at hlive
      exact absurd hlive (by simp)
  | append_singleton edits e ih =>
      rw [after_concat, isDocument_apply_iff, ih]
      simp only [livesSince_concat_iff]
      constructor
      · rintro (⟨he, hnew⟩ | ⟨⟨time, h⟩, hlive⟩)
        · exact ⟨_, Or.inl ⟨rfl, he, hnew.symm⟩⟩
        · exact ⟨time, Or.inr ⟨h, hlive⟩⟩
      · rintro ⟨time, ⟨-, he, hnew⟩ | ⟨h, hlive⟩⟩
        · exact Or.inl ⟨he, hnew.symm⟩
        · exact Or.inr ⟨⟨time, h⟩, hlive⟩

/-- A handle is not given out again while it is live. -/
theorem LivesSince.le_of_livesSince (h : LivesSince edits time document) {other : Nat}
    (hother : LivesSince edits other document) : other ≤ time := by
  by_contra hlt
  have hlive := h.lives other (by omega) hother.time_lt.le
  rw [← hother.handle_eq, createDocument, contains_create_fst] at hlive
  exact absurd hlive (by simp)

theorem LivesSince.time_eq (h : LivesSince edits time document) {other : Nat}
    (hother : LivesSince edits other document) : time = other :=
  Nat.le_antisymm (hother.le_of_livesSince h) (h.le_of_livesSince hother)

/-- Where there is a document, there is an oldest one. -/
theorem exists_oldest (h : (after edits).isDocument document = true) :
    ∃ time oldest, Oldest edits time oldest := by
  classical
  have hsome : ∃ time, ∃ node, LivesSince edits time node := by
    obtain ⟨time, hlives⟩ := (isDocument_iff_exists_livesSince edits document).mp h
    exact ⟨time, document, hlives⟩
  obtain ⟨oldest, hlives⟩ := Nat.find_spec hsome
  exact ⟨_, oldest, hlives, fun hother => Nat.find_min' hsome ⟨_, hother⟩⟩

/-- A document is created in a vacant slot or behind all slots. -/
theorem createDocument_cases (dom : Dom) : dom.nodes.IsVacant dom.createDocument.1.index ∨
    dom.createDocument.1.index = dom.nodes.slots.size := by
  obtain ⟨index, generation, next, hslot, heq⟩ | heq :=
    dom.nodes.allocate_cases { payload := .document }
  · refine Or.inl ⟨generation, next, ?_⟩
    rw [createDocument, create, heq]
    exact hslot
  · refine Or.inr ?_
    rw [createDocument, create, heq]

/-- The oldest document is the first one if no younger document went into a vacant slot before
it. -/
theorem Oldest.firstDocument?_iff (h : Oldest edits time document) :
    (after edits).firstDocument? = some document ↔ ∀ other younger,
      LivesSince edits other younger → (after (edits.take other)).nodes.IsVacant younger.index →
        document.index ≤ younger.index := by
  have hlives := h.livesSince
  rw [firstDocument?_eq_some_iff]
  constructor
  · rintro ⟨-, hfirst⟩ other younger hyounger -
    exact hfirst younger ((isDocument_iff_exists_livesSince edits younger).mpr ⟨other, hyounger⟩)
  · intro hvacant
    refine ⟨(isDocument_iff_exists_livesSince edits document).mpr ⟨time, hlives⟩, ?_⟩
    intro younger hdocument
    obtain ⟨other, hyounger⟩ := (isDocument_iff_exists_livesSince edits younger).mp hdocument
    rcases createDocument_cases (after (edits.take other)) with hslot | hslot
    · rw [hyounger.handle_eq] at hslot
      exact hvacant other younger hyounger hslot
    · -- a new slot is behind the slot of the oldest document, unless this is the oldest one
      rw [hyounger.handle_eq] at hslot
      rcases (h.le hyounger).lt_or_eq with hlt | rfl
      · obtain ⟨value, hvalue⟩ := ((after (edits.take other)).nodes.contains_iff document).mp
          (hlives.lives other hlt hyounger.time_lt.le)
        rw [hslot]
        exact ((after (edits.take other)).nodes.index_lt_of_get? hvalue).le
      · rw [← hlives.handle_eq, hyounger.handle_eq]

end Times

/-- What the first document tells of the edits. -/
structure TellsDocuments (edits : List Edit) : Prop where
  eq_none_iff : (after edits).firstDocument? = none ↔
    ∀ node, (after edits).isDocument node = false
  isDocument_iff : ∀ document, (after edits).isDocument document = true ↔
    ∃ time, LivesSince edits time document
  time_eq : ∀ {time other document}, LivesSince edits time document →
    LivesSince edits other document → time = other
  exists_oldest : (after edits).firstDocument? ≠ none →
    ∃ time document, Oldest edits time document
  /-- The first document is the oldest one, unless a younger one went into a vacant slot before
  it. -/
  eq_some_iff : ∀ {time document}, Oldest edits time document →
    ((after edits).firstDocument? = some document ↔ ∀ other younger,
      LivesSince edits other younger → (after (edits.take other)).nodes.IsVacant younger.index →
        document.index ≤ younger.index)
  /-- As long as the first document lives, no edit changes it but the creation of a document in a
  slot before it. -/
  eq_of_contains : ∀ {document e}, (after edits).firstDocument? = some document →
    (after (edits ++ [e])).contains document = true →
      (after (edits ++ [e])).firstDocument? =
        some (if e = .createDocument ∧ (after edits).createDocument.1.index < document.index
          then (after edits).createDocument.1 else document)

/-- **After any edits, the first document is the oldest one that lives, unless a younger one was
put into a vacant slot before it.** -/
theorem tellsDocuments_after (edits : List Edit) : TellsDocuments edits where
  eq_none_iff := firstDocument?_eq_none_iff _
  isDocument_iff := isDocument_iff_exists_livesSince edits
  time_eq h hother := h.time_eq hother
  exists_oldest := by
    intro hsome
    obtain ⟨document, hfirst⟩ := Option.ne_none_iff_exists'.mp hsome
    exact Dom.exists_oldest (firstDocument?_eq_some_iff.mp hfirst).1
  eq_some_iff := Oldest.firstDocument?_iff
  eq_of_contains := by
    intro document e hfirst hlive
    rw [after_concat] at hlive ⊢
    exact firstDocument?_apply hfirst hlive

/-- The edits that create two documents, drop the first of them, and create a third one. -/
def thirdDocumentEdits : List Edit :=
  [.createDocument, .createDocument, .dropSubtree ⟨0, 0⟩, .createDocument]

/-- The third document goes into the slot of the one that was dropped, and comes before the second
one from then on, although the second one is older. -/
theorem firstDocument?_thirdDocument :
    Oldest thirdDocumentEdits 1 ⟨1, 0⟩ ∧
      (after (thirdDocumentEdits.take 3)).firstDocument? = some ⟨1, 0⟩ ∧
      (after thirdDocumentEdits).firstDocument? = some ⟨0, 1⟩ := by
  have hlives : LivesSince thirdDocumentEdits 1 ⟨1, 0⟩ := by
    refine ⟨rfl, by decide +kernel, fun later hlater hle => ?_⟩
    obtain rfl | rfl | rfl : later = 2 ∨ later = 3 ∨ later = 4 := by
      rw [show thirdDocumentEdits.length = 4 from rfl] at hle
      omega
    all_goals decide +kernel
  refine ⟨⟨hlives, fun {time node} h => ?_⟩, by decide +kernel, by decide +kernel⟩
  by_contra hlt
  obtain rfl : time = 0 := by omega
  -- the document that was created before is not live any more
  have hlive := h.lives 4 (by decide) le_rfl
  rw [← h.handle_eq] at hlive
  exact absurd hlive (by decide +kernel)

end DomQuery.Dom
