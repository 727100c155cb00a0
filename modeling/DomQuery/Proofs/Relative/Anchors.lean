import DomQuery.Proofs.Relative.Clauses

/-!
# Anchors

The steps of a clause lead from an element to an element of the same document
(`Rooted.of_located`).  What they leave of a trimmed clause is trimmed
(`endsPlain_located`).
-/

namespace DomQuery.Dom

open Plan

variable {dom : Dom} {document context anchor : Handle} {clause selector : String}

theorem treeTop_eq_root (helement : dom.isElement context = true) :
    dom.treeTop context = dom.root context := by
  rw [treeTop, dom.isDocument_eq_false_of_isElement helement, if_neg (by simp)]

/-! ### Steps -/

/-- The nearest match is the element or an ancestor of it. -/
theorem mem_of_closest {element found : Handle}
    (h : dom.closest element selector = .ok (some found)) :
    found ∈ element :: dom.ancestors element ∧ dom.isElement found = true := by
  simp only [closest, bind, Except.bind, pure, Except.pure] at h
  split at h
  · exact absurd h (by simp)
  · split at h
    · exact absurd h (by simp)
    · have hmem := List.mem_of_find?_eq_some (Except.ok.inj h)
      exact ⟨(List.takeWhile_sublist _).mem hmem, List.mem_takeWhile_imp hmem⟩

theorem exists_of_anchorAbove (h : anchorAbove dom context selector = some anchor) :
    ∃ parent, dom.parent? context = some parent ∧ anchor ∈ parent :: dom.ancestors parent ∧
      dom.isElement anchor = true := by
  obtain ⟨parent, hparent, hfound⟩ := Option.bind_eq_some_iff.mp h
  refine ⟨parent, (Option.filter_eq_some_iff.mp hparent).1, ?_⟩
  split at hfound
  · subst hfound
    exact mem_of_closest ‹_›
  · exact absurd hfound (by simp)

namespace Rooted

/-- The elements above an element of the document are in it too. -/
theorem of_mem_ancestors (h : dom.Rooted document context) (hdom : dom.Reachable)
    (halone : dom.parent? document = none) (hdocument : dom.isDocument document = true)
    (habove : anchor ∈ dom.ancestors context) (helement : dom.isElement anchor = true) :
    dom.Rooted document anchor := by
  have hne : anchor ≠ document := by
    rintro rfl
    exact absurd (helement.symm.trans (dom.isElement_eq_false_of_isDocument hdocument)) (by simp)
  induction h with
  | top _ hparent =>
      rw [Navigable.ancestors_of_top hdom halone hparent, List.mem_singleton] at habove
      exact absurd habove hne
  | child _ hparent hrest ih =>
      rw [hdom.forest.ancestors_of_parent hparent] at habove
      rcases List.mem_cons.mp habove with rfl | habove
      · exact hrest
      · exact ih habove

theorem of_anchorAbove (h : dom.Rooted document context) (hdom : dom.Reachable)
    (halone : dom.parent? document = none) (hdocument : dom.isDocument document = true)
    (hanchor : anchorAbove dom context selector = some anchor) : dom.Rooted document anchor := by
  obtain ⟨parent, hparent, hmem, helement⟩ := exists_of_anchorAbove hanchor
  rw [← hdom.forest.ancestors_of_parent hparent] at hmem
  exact h.of_mem_ancestors hdom halone hdocument hmem helement

theorem of_anchorBefore (h : dom.Rooted document context) (hdom : dom.Reachable)
    (hanchor : anchorBefore dom context selector = some anchor) : dom.Rooted document anchor := by
  have hprevious := (Option.filter_eq_some_iff.mp hanchor).1
  have helement : dom.isElement anchor = true := List.find?_some hprevious
  obtain ⟨parent, -, -, hcontext, hparent, -⟩ :=
    (hdom.forest.mem_previousElement? h.isElement).mp hprevious
  cases h with
  | top _ hparent' => exact .top helement (hparent.trans (hcontext.symm.trans hparent'))
  | child _ hparent' hrest =>
      exact .child helement (hparent.trans (hcontext.symm.trans hparent')) hrest

/-- The steps of a clause stay among the elements of the document. -/
theorem of_located (h : dom.Rooted document context) (hdom : dom.Reachable)
    (halone : dom.parent? document = none) (hdocument : dom.isDocument document = true)
    (hanchor : (located dom context clause).anchor = some anchor) :
    dom.Rooted document anchor := by
  have hfirst : ∀ node, (above dom context clause).anchor = some node →
      dom.Rooted document node := by
    intro node hnode
    rw [above] at hnode
    split at hnode
    · exact h.of_anchorAbove hdom halone hdocument hnode
    · cases hnode
      exact h
  rw [located, before] at hanchor
  split at hanchor
  · exact hfirst anchor hanchor
  · next hsome =>
      split at hanchor
      · exact (hfirst _ hsome).of_anchorBefore hdom hanchor
      · exact hfirst anchor hanchor

end Rooted

theorem Addressable.mem_descendants_of_located (h : dom.Addressable document)
    (hdom : dom.Reachable) (halone : dom.parent? document = none)
    (hcontext : context ∈ dom.descendants document) (helement : dom.isElement context = true)
    (hanchor : (located dom context clause).anchor = some anchor) :
    anchor ∈ dom.descendants document ∧ dom.isElement anchor = true := by
  have hrooted :=
    (h.rooted hdom hcontext helement).of_located hdom halone h.isDocument hanchor
  exact ⟨hrooted.mem_descendants hdom, hrooted.isElement⟩

/-! ### What the steps leave -/

theorem endsPlain_trim (text : List Char) : EndsPlain (String.ofList (Text.trim text)) := by
  intro c hc
  rw [String.toList_ofList] at hc
  exact Text.of_mem_getLast?_trim hc

theorem ne_empty_of_mem_clauses {text : String}
    (hclause : clause ∈ (ClauseList.ofText text).clauses) : clause ≠ "" := by
  simp only [ClauseList.ofText, Relative.clauses, List.mem_map, List.mem_filter] at hclause
  obtain ⟨chars, ⟨-, hne⟩, rfl⟩ := hclause
  rintro hempty
  rw [← String.toList_inj, String.toList_ofList, String.toList_empty] at hempty
  exact absurd hne (by simp [hempty])

theorem endsPlain_of_mem_clauses {text : String}
    (hclause : clause ∈ (ClauseList.ofText text).clauses) : EndsPlain clause := by
  simp only [ClauseList.ofText, Relative.clauses, List.mem_map, List.mem_filter] at hclause
  obtain ⟨-, ⟨⟨piece, -, rfl⟩, -⟩, rfl⟩ := hclause
  exact endsPlain_trim piece

theorem endsPlain_located (h : EndsPlain clause) : EndsPlain (located dom context clause).rest := by
  have hfirst : EndsPlain (above dom context clause).rest := by
    rw [above]
    split
    · exact endsPlain_trim _
    · exact h
  rw [located, before]
  split
  · exact hfirst
  · split
    · exact endsPlain_trim _
    · exact hfirst

end DomQuery.Dom
