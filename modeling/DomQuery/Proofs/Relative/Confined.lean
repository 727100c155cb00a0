import DomQuery.Proofs.Dom.TreeOrder
import DomQuery.Proofs.Relative.Anchors

/-!
# Where a query looks

A query for all nodes finds elements of the tree that its context is in, in the order of the tree
and none of them twice (`Engine.inTreeOrder_findAll`), whatever the text is.

A plan says where it looks before it is carried out, so this is a matter of plans
(`Plan.Confined`).  The steps of a clause lead to a parent, its ancestors or a sibling, which all
have the root of the context (`Plan.Located.Confined`).  The query itself is made below the anchor,
below its parent or below the top of the tree.
-/

namespace DomQuery

namespace Plan

variable {dom : Dom} {kids : Handle → List Handle} {context anchor : Handle} {clause : String}

/-- The plan looks for elements in the tree of the context only. -/
inductive Confined (dom : Dom) (context : Handle) : Plan → Prop where
  | answer {found : Option Handle} :
      (∀ node ∈ found, dom.isElement node = true ∧ dom.root node = dom.root context) →
        Confined dom context (.answer found)
  | search {scope : Handle} (selector : String) : dom.root scope = dom.root context →
      Confined dom context (.search scope selector)

theorem Confined.nothing (dom : Dom) (context : Handle) : Confined dom context (.answer none) :=
  .answer fun node hnode => absurd hnode (by simp)

/-- After its steps the clause is in the tree of the context, and at an element if its anchor is all
that it asks for. -/
structure Located.Confined (dom : Dom) (context : Handle) (clause : Located) : Prop where
  root_eq : ∀ anchor ∈ clause.anchor, dom.root anchor = dom.root context
  isElement : clause.rest = "" → ∀ anchor ∈ clause.anchor, dom.isElement anchor = true

/-! ### Steps -/

theorem confined_anchorAbove (h : Dom.Forest dom kids) {selector : String}
    (hanchor : anchorAbove dom context selector = some anchor) :
    dom.isElement anchor = true ∧ dom.root anchor = dom.root context := by
  obtain ⟨parent, hparent, hmem, helement⟩ := Dom.exists_of_anchorAbove hanchor
  refine ⟨helement, ?_⟩
  rw [h.root_of_parent hparent]
  rcases List.mem_cons.mp hmem with rfl | habove
  · rfl
  · exact (h.root_eq_of_within (h.mem_ancestors.mp habove).to_reflTransGen).symm

theorem confined_anchorBefore (h : Dom.Forest dom kids) {selector : String}
    (hanchor : anchorBefore dom context selector = some anchor) :
    dom.isElement anchor = true ∧ dom.root anchor = dom.root context := by
  have hprevious : dom.previousElement? context = some anchor :=
    (Option.filter_eq_some_iff.mp hanchor).1
  exact ⟨List.find?_some hprevious,
    h.root_of_precedingSibling (List.mem_of_find?_eq_some hprevious)⟩

theorem confined_above (h : Dom.Forest dom kids) (hclause : clause ≠ "") :
    (above dom context clause).Confined dom context := by
  rw [above]
  split
  · constructor
    · intro anchor hanchor
      exact (confined_anchorAbove h hanchor).2
    · intro _ anchor hanchor
      exact (confined_anchorAbove h hanchor).1
  · constructor
    · intro anchor hanchor
      rw [Option.some.inj hanchor]
    · intro hempty
      exact absurd hempty hclause

theorem Located.Confined.before {clause : Located} (hclause : clause.Confined dom context)
    (h : Dom.Forest dom kids) : (Plan.before dom clause).Confined dom context := by
  rw [Plan.before]
  split
  · exact hclause
  · next node hnode =>
      have hroot := hclause.root_eq node hnode
      split
      · constructor
        · intro anchor hanchor
          exact (confined_anchorBefore h hanchor).2.trans hroot
        · intro _ anchor hanchor
          exact (confined_anchorBefore h hanchor).1
      · exact hclause

theorem confined_located (h : Dom.Forest dom kids) (hclause : clause ≠ "") :
    (located dom context clause).Confined dom context :=
  (confined_above h hclause).before h

/-! ### Plans -/

theorem confined_atAnchor (h : Dom.Forest dom kids) (hroot : dom.root anchor = dom.root context)
    (rest : String) : (atAnchor dom anchor rest).Confined dom context := by
  rw [atAnchor]
  split
  · split
    · next parent _ hparent _ =>
        have hparent' := (Option.filter_eq_some_iff.mp hparent).1
        exact .search _ ((h.root_of_parent hparent').symm.trans hroot)
    · exact .nothing dom context
  · split
    · exact .search _ hroot
    · exact .search _ hroot

theorem Located.Confined.ofSingle {clause : Located} (hclause : clause.Confined dom context)
    (h : Dom.Forest dom kids) : (Plan.ofSingle dom clause).Confined dom context := by
  rw [Plan.ofSingle]
  split
  · next hempty =>
      refine .answer fun node hnode => ⟨?_, hclause.root_eq node hnode⟩
      exact hclause.isElement (String.isEmpty_iff.mp hempty) node hnode
  · split
    · exact .nothing dom context
    · next anchor hanchor => exact confined_atAnchor h (hclause.root_eq anchor hanchor) _

theorem confined_ofSeveral (h : Dom.Forest dom kids) (clauses : List Located) :
    (ofSeveral dom context clauses).Confined dom context := by
  have htop : dom.root (dom.treeTop context) = dom.root context := by
    rw [Dom.treeTop]
    split
    · rfl
    · exact h.root_root context
  rw [ofSeveral]
  split
  · exact .nothing dom context
  · exact .search _ htop

/-- Every plan is confined to the tree of the context, as no clause is empty. -/
theorem confined_planned (h : Dom.Forest dom kids) {list : ClauseList}
    (hclauses : ∀ clause ∈ list.clauses, clause ≠ "") :
    (planned dom context list).Confined dom context := by
  rw [planned]
  split
  · split
    · next clause hlone =>
        have hclause : clause ≠ "" := hclauses clause (by rw [hlone]; exact List.mem_cons_self)
        exact (confined_located h hclause).ofSingle h
    · exact confined_ofSeveral h _
  · exact .search _ rfl

/-- What a confined plan finds. -/
theorem Confined.all {plan : Plan} (hplan : plan.Confined dom context) (h : Dom.Forest dom kids) :
    dom.InTreeOrder context (plan.all dom) ∧ ∀ node ∈ plan.all dom, dom.isElement node = true := by
  cases hplan with
  | @answer found hfound =>
      constructor
      · exact h.inTreeOrder_toList fun node hnode => (hfound node hnode).2
      · intro node hnode
        exact (hfound node (Option.mem_toList.mp hnode)).1
  | search selector hroot =>
      rw [Plan.all]
      split
      · next found hfound =>
          obtain ⟨scope', selectors, rfl⟩ := Dom.exists_of_querySelectorAll hfound
          refine ⟨h.inTreeOrder_filter hroot _, ?_⟩
          intro node hnode
          exact Dom.isElement_of_matchesAny (List.mem_filter.mp hnode).2
      · exact ⟨h.inTreeOrder_of_sublist (List.nil_sublist _), by simp⟩

end Plan

/-! ### Queries -/

namespace Engine

variable {dom : Dom}

/-- **A query stays in its tree.**  Whatever the text and the context are, a query for all nodes
finds live elements with the root of the context, in the order of the tree and none of them
twice. -/
theorem inTreeOrder_findAll (hdom : dom.Reachable) (engine : Engine) (text : String)
    (context : Handle) :
    dom.InTreeOrder context ((findAll dom (.selector text) context).run engine).1 ∧
      ∀ node ∈ ((findAll dom (.selector text) context).run engine).1,
        dom.contains node = true ∧ dom.isElement node = true ∧
          dom.root node = dom.root context := by
  have hfound : dom.InTreeOrder context ((findAll dom (.selector text) context).run engine).1 ∧
      ∀ node ∈ ((findAll dom (.selector text) context).run engine).1,
        dom.isElement node = true := by
    rw [yields_findAll dom text context engine]
    by_cases hempty : text.isEmpty = true
    · rw [if_pos hempty]
      exact ⟨hdom.forest.inTreeOrder_of_sublist (List.nil_sublist _), by simp⟩
    · rw [if_neg hempty]
      have hplan : (Plan.planned dom context (ClauseList.ofText text)).Confined dom context :=
        Plan.confined_planned hdom.forest fun _ => Dom.ne_empty_of_mem_clauses
      exact hplan.all hdom.forest
  refine ⟨hfound.1, ?_⟩
  intro node hnode
  have helement := hfound.2 node hnode
  exact ⟨dom.contains_of_isElement helement, helement,
    hfound.1.root_eq_of_mem hdom.forest hnode⟩

/-- From the second item of the listing. -/
theorem inTreeOrder_findAll_listing :
    Dom.listing.InTreeOrder ⟨3, 0⟩ (Dom.listing.findAll (.selector "-li, !ul >li") ⟨3, 0⟩) :=
  (inTreeOrder_findAll Dom.reachable_listing {} "-li, !ul >li" ⟨3, 0⟩).1

end Engine

end DomQuery
