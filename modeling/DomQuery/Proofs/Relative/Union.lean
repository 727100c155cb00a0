import DomQuery.Proofs.Relative.Anchors

/-!
# Several clauses

A list of clauses finds what its clauses find (`Engine.mem_findAll_iff_exists_clause`), although a
lone clause is searched at its anchor and several clauses are written out and searched together in
the whole document.

The clauses agree one by one: `mem_all_ofSingle_iff` says so for a clause with an anchor, and a
clause without one finds nothing and is not written out.
-/

namespace DomQuery

namespace Dom

open Plan

variable {dom : Dom} {document context node : Handle} {clause : Located} {clauses : List Located}

/-- A clause after its steps that can be searched at its anchor, and written out as well. -/
structure Writable (dom : Dom) (document : Handle) (clause : Located) : Prop where
  anchor_mem : ∀ anchor, clause.anchor = some anchor →
    anchor ∈ dom.descendants document ∧ dom.isElement anchor = true
  exists_remainder : ∃ remainder, Remainder clause.rest remainder
  endsPlain : EndsPlain clause.rest

namespace Addressable

/-- The clauses that are written out are selectors, and together they match what the clauses
find one by one. -/
theorem exists_selectors (h : dom.Addressable document) (hdom : dom.Reachable)
    (halone : dom.parent? document = none) (scope : Option Handle)
    (hclauses : ∀ clause ∈ clauses, dom.Writable document clause) :
    ∃ selectors, List.Forall₂ (fun text selector => SelectorList.ofText text = .ok [selector])
        (clauses.filterMap (writtenOut dom)) selectors ∧
      ∀ node, node ∈ dom.descendants document ∧ dom.matchesAny scope selectors node = true ↔
        ∃ clause ∈ clauses, node ∈ (ofSingle dom clause).all dom := by
  induction clauses with
  | nil => exact ⟨[], List.Forall₂.nil, fun node => by simp [matchesAny]⟩
  | cons clause clauses ih =>
      obtain ⟨selectors, hread, hfound⟩ := ih fun other hother =>
        hclauses other (List.mem_cons_of_mem _ hother)
      obtain ⟨hanchor, ⟨remainder, hremainder⟩, hplain⟩ := hclauses clause List.mem_cons_self
      obtain ⟨anchor, rest⟩ := clause
      cases anchor with
      | none =>
          refine ⟨selectors, ?_, fun node => ?_⟩
          · rwa [List.filterMap_cons_none (by rw [writtenOut, Option.bind_none])]
          · rw [hfound]
            simp [ofSingle_none, Plan.all]
      | some anchor =>
          obtain ⟨hmem, helement⟩ := hanchor anchor rfl
          obtain ⟨text, htext, hselector⟩ :=
            h.exists_writtenOut hdom halone hmem helement hremainder hplain
          refine ⟨dom.writtenSelector anchor remainder :: selectors, ?_, fun node => ?_⟩
          · rw [List.filterMap_cons_some htext]
            exact List.Forall₂.cons hselector hread
          · rw [List.exists_mem_cons_iff, ← hfound, matchesAny, Bool.or_eq_true,
              h.mem_all_ofSingle_iff hdom halone hmem helement scope hremainder]
            exact and_or_left

/-- The plan for several clauses finds what the plans for each of them find. -/
theorem mem_all_ofSeveral_iff (h : dom.Addressable document) (hdom : dom.Reachable)
    (halone : dom.parent? document = none) (htop : dom.treeTop context = document)
    (hclauses : ∀ clause ∈ clauses, dom.Writable document clause) :
    node ∈ (ofSeveral dom context clauses).all dom ↔
      ∃ clause ∈ clauses, node ∈ (ofSingle dom clause).all dom := by
  obtain ⟨selectors, hread, hfound⟩ :=
    h.exists_selectors hdom halone (dom.documentElement? document) hclauses
  rw [← hfound, ofSeveral]
  cases htexts : clauses.filterMap (writtenOut dom) with
  | nil =>
      rw [htexts] at hread
      cases hread
      simp [Plan.all, matchesAny]
  | cons text texts =>
      rw [htexts] at hread
      have hall := SelectorList.ofText_intercalate (by simp) hread
      simp [Plan.all, htop, querySelectorAll_of_isDocument h.isDocument hall]

end Addressable

end Dom

/-! ### Queries -/

namespace Engine

open Plan

variable {dom : Dom} {context node : Handle} {text clause : String} {clauses : List String}

/-- What several relative clauses find. -/
theorem mem_findAll_several_iff (hclauses : (ClauseList.ofText text).clauses = clauses)
    (hseveral : 2 ≤ clauses.length)
    (hrelative : ∀ clause ∈ clauses, Relative.isRelative clause = true) (engine : Engine) :
    node ∈ ((findAll dom (.selector text) context).run engine).1 ↔
      node ∈ (ofSeveral dom context (clauses.map (located dom context))).all dom := by
  have hne : text.isEmpty = false := by
    refine Text.isEmpty_eq_false ?_
    rintro rfl
    rw [← hclauses] at hseveral
    exact absurd hseveral (by decide)
  have hlist : (ClauseList.ofText text).isRelative = true := by
    obtain ⟨first, rest, rfl⟩ := List.exists_cons_of_length_pos (Nat.lt_of_succ_lt hseveral)
    rw [ClauseList.isRelative, hclauses, List.any_cons, hrelative first List.mem_cons_self,
      Bool.true_or]
  have hplan := Plan.planned_several dom context hlist (hclauses ▸ hseveral)
  rw [yields_findAll dom text context engine, hne, hplan, if_neg (by simp), hclauses]

/-- What the steps of `-li` and of `!ul >li` leave at the second item of the listing. -/
theorem exists_remainder_listing (engine : Engine) : ∀ clause ∈ ["-li", "!ul >li"],
    ∃ remainder, Remainder ((locate Dom.listing ⟨3, 0⟩ clause).run engine).1.rest remainder := by
  intro clause hmem
  rw [yields_locate Dom.listing ⟨3, 0⟩ clause engine]
  simp only [List.mem_cons, List.not_mem_nil, or_false] at hmem
  rcases hmem with rfl | rfl
  · have hrest : (located Dom.listing ⟨3, 0⟩ "-li").rest = "" := by decide +kernel
    exact ⟨none, hrest ▸ .nothing⟩
  · have hrest : (located Dom.listing ⟨3, 0⟩ "!ul >li").rest =
        String.ofList ('>' :: "li".toList) := by decide +kernel
    have hname : Identifier.IsKeyword "li" := ⟨by decide, by decide⟩
    have hread := (ComplexSelector.Spelled.compound (spelledType_tag hname (by decide)).compound).ofText
    rw [String.ofList_toList] at hread
    exact ⟨some (.child, [.tag "li"]), hrest ▸ .sign rfl hread rfl⟩

/-- **Several clauses find what each of them finds.**  In a document in which every element has a
path of its own, a node is found by a list of relative clauses if and only if one of the clauses
alone finds it, whatever the engines remember. -/
theorem mem_findAll_iff_exists_clause (hdom : dom.Reachable)
    (helement : dom.isElement context = true) (haddress : dom.Addressable (dom.root context))
    (hclauses : (ClauseList.ofText text).clauses = clauses) (hseveral : 2 ≤ clauses.length)
    (hlone : ∀ clause ∈ clauses, (ClauseList.ofText clause).clauses = [clause])
    (hrelative : ∀ clause ∈ clauses, Relative.isRelative clause = true)
    (engine : Engine) (engines : String → Engine)
    (hrest : ∀ clause ∈ clauses, ∃ remainder,
      Remainder ((locate dom context clause).run engine).1.rest remainder) (node : Handle) :
    node ∈ ((findAll dom (.selector text) context).run engine).1 ↔
      ∃ clause ∈ clauses,
        node ∈ ((findAll dom (.selector clause) context).run (engines clause)).1 := by
  have halone := hdom.forest.parent_root context
  have hcontext : context ∈ dom.descendants (dom.root context) :=
    (hdom.forest.eq_or_mem_descendants_root context).resolve_left
      (haddress.ne_document helement).symm
  -- the steps of every clause stay in the document and leave what can be written out
  have hwritable : ∀ clause ∈ clauses.map (located dom context),
      dom.Writable (dom.root context) clause := by
    intro found hmem
    obtain ⟨clause, hclause, rfl⟩ := List.mem_map.mp hmem
    have hremainder := hrest clause hclause
    rw [yields_locate dom context clause engine] at hremainder
    have hplain : Dom.EndsPlain clause := by
      rw [← hclauses] at hclause
      exact Dom.endsPlain_of_mem_clauses hclause
    exact ⟨fun _ => haddress.mem_descendants_of_located hdom halone hcontext helement,
      hremainder, Dom.endsPlain_located hplain⟩
  rw [mem_findAll_several_iff hclauses hseveral hrelative,
    haddress.mem_all_ofSeveral_iff hdom halone (Dom.treeTop_eq_root helement) hwritable]
  -- and a lone clause is searched at its anchor
  have hsingle : ∀ clause ∈ clauses,
      (node ∈ ((findAll dom (.selector clause) context).run (engines clause)).1 ↔
        node ∈ (ofSingle dom (located dom context clause)).all dom) := by
    intro clause hmem
    rw [yields_findAll_lone dom context (hlone clause hmem) (hrelative clause hmem)]
  simp only [List.mem_map, exists_exists_and_eq_and]
  exact exists_congr fun clause => and_congr_right fun hmem => (hsingle clause hmem).symm

/-- The first item of the listing is found from the second one, by the first clause. -/
theorem mem_findAll_listing :
    ⟨2, 0⟩ ∈ Dom.listing.findAll (.selector "-li, !ul >li") ⟨3, 0⟩ := by
  have hfirst : ⟨2, 0⟩ ∈ ((findAll Dom.listing (.selector "-li") ⟨3, 0⟩).run {}).1 := by
    rw [yields_findAll]
    decide +kernel
  exact (mem_findAll_iff_exists_clause Dom.reachable_listing rfl
    (show Dom.listing.Addressable (Dom.listing.root ⟨3, 0⟩) from Dom.addressable_listing)
    (by decide +kernel) (by decide) (by decide +kernel) (by decide) {} (fun _ => {})
    (exists_remainder_listing {}) ⟨2, 0⟩).mpr ⟨"-li", List.mem_cons_self, hfirst⟩

end Engine

end DomQuery
