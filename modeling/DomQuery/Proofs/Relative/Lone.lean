import DomQuery.Proofs.Relative.Confined

/-!
# A lone combinator

A clause that is the sign of a combinator with a selector behind it finds the relatives of its
context (`Engine.findAll_sign`): the nodes that match the selector by a line of elements whose last
one, for the leftmost compound, is a child of the context, the next element sibling or a later one
(`Dom.SignLeads`).

The matcher looks from the subject to the left, so it sees the context as the left side of a
combinator.  Where the last element of a line is an element, this is the same
(`Dom.Forest.signLeads_iff`).
-/

namespace DomQuery

namespace Dom

variable {dom : Dom} {kids : Handle → List Handle} {element last node scope : Handle} {c : Char}
  {combinator : Combinator} {text : String} {selector : ComplexSelector}

/-- What the sign in front of a clause means at an element: what `:scope` stands for, and an element
for the leftmost compound of the clause. -/
inductive SignLeads (dom : Dom) (element : Handle) : Char → Handle → Handle → Prop where
  | child {last : Handle} : last ∈ dom.elementChildren element →
      SignLeads dom element '>' element last
  | next {parent last : Handle} : dom.parentElement? element = some parent →
      dom.nextElement? element = some last → SignLeads dom element '+' parent last
  | later {parent last : Handle} : dom.parentElement? element = some parent →
      last ∈ (dom.followingSiblings element).filter dom.isElement →
        SignLeads dom element '~' parent last

/-! ### Related from the left -/

namespace Forest

theorem mem_elementChildren_iff (h : Forest dom kids) (helement : dom.isElement element = true)
    (hlast : dom.isElement last = true) :
    last ∈ dom.elementChildren element ↔ dom.Related .child last element := by
  constructor
  · intro hmem
    exact Option.filter_eq_some_iff.mpr ⟨h.parent_of_mem_elementChildren hmem, helement⟩
  · intro hrelated
    have hparent := (Option.filter_eq_some_iff.mp hrelated).1
    refine List.mem_filter.mpr ⟨?_, hlast⟩
    rw [h.children_eq]
    exact (h.parent_iff last element).mp hparent

theorem followingSiblings_of_alone (h : Forest dom kids) (halone : dom.parent? element = none) :
    dom.followingSiblings element = [] :=
  (h.siblings_eq_nil halone).2

theorem nextElement?_iff (h : Forest dom kids) (helement : dom.isElement element = true) :
    dom.nextElement? element = some last ↔ dom.Related .nextSibling last element := by
  constructor
  · intro hnext
    cases hparent : dom.parent? element with
    | none =>
        rw [nextElement?, h.followingSiblings_of_alone hparent] at hnext
        exact absurd hnext (by simp)
    | some parent =>
        obtain ⟨before, after, hsplit⟩ := h.exists_elementChildren_split hparent helement
        rw [h.nextElement?_eq hsplit] at hnext
        obtain ⟨rest, rfl⟩ := List.head?_eq_some_iff.mp hnext
        exact ⟨parent, before, rest, h.parent_of_mem_elementChildren (by simp [hsplit]), hparent,
          hsplit⟩
  · rintro ⟨parent, before, after, -, -, hsplit⟩
    rw [h.nextElement?_eq hsplit, List.head?_cons]

theorem mem_followingElements_iff (h : Forest dom kids) (helement : dom.isElement element = true) :
    last ∈ (dom.followingSiblings element).filter dom.isElement ↔
      dom.Related .subsequentSibling last element := by
  constructor
  · intro hmem
    cases hparent : dom.parent? element with
    | none =>
        rw [h.followingSiblings_of_alone hparent] at hmem
        exact absurd hmem (by simp)
    | some parent =>
        obtain ⟨before, after, hsplit⟩ := h.exists_elementChildren_split hparent helement
        rw [h.followingElements_eq hsplit] at hmem
        obtain ⟨between, rest, rfl⟩ := List.append_of_mem hmem
        exact ⟨parent, before, between, rest,
          h.parent_of_mem_elementChildren (by simp [hsplit]), hparent, hsplit⟩
  · rintro ⟨parent, before, between, after, -, -, hsplit⟩
    rw [h.followingElements_eq hsplit]
    simp

/-- The sign leads from the element where the combinator leads back to it. -/
theorem signLeads_iff (h : Forest dom kids) (helement : dom.isElement element = true)
    (hlast : dom.isElement last = true) (hsign : Combinator.ofSign? c = some combinator) :
    dom.SignLeads element c scope last ↔
      dom.signScope combinator element = some scope ∧ dom.Related combinator last element := by
  constructor
  · rintro (hmem | ⟨hparent, hnext⟩ | ⟨hparent, hmem⟩)
    · cases hsign
      exact ⟨rfl, (h.mem_elementChildren_iff helement hlast).mp hmem⟩
    · cases hsign
      exact ⟨hparent, (h.nextElement?_iff helement).mp hnext⟩
    · cases hsign
      exact ⟨hparent, (h.mem_followingElements_iff helement).mp hmem⟩
  · rintro ⟨hscope, hrelated⟩
    have hmem := Combinator.ofSign?_cases hsign
    simp only [List.mem_cons, List.not_mem_nil, or_false] at hmem
    rcases hmem with rfl | rfl | rfl
    · cases hsign
      cases hscope
      exact .child ((h.mem_elementChildren_iff helement hlast).mpr hrelated)
    · cases hsign
      exact .next hscope ((h.nextElement?_iff helement).mpr hrelated)
    · cases hsign
      exact .later hscope ((h.mem_followingElements_iff helement).mpr hrelated)

end Forest

/-- Behind the sign of a combinator, a search at an element begins lines where the sign leads to. -/
theorem mem_atAnchor_iff_signLeads (hdom : dom.Reachable)
    (hsmall : dom.nodes.toList.length < 2147483648) (helement : dom.isElement element = true)
    (hc : c ∈ ['>', '+', '~']) (hread : SelectorList.ofText text = .ok [selector]) :
    node ∈ (Plan.atAnchor dom element (String.ofList (c :: text.toList))).all dom ↔
      ∃ scope line last, dom.SignLeads element c scope last ∧
        dom.Line (some scope) selector.parts line ∧ line.head? = some node ∧
        line.getLast? = some last := by
  obtain ⟨combinator, hsign⟩ := Combinator.exists_ofSign? hc
  have hbound : ∀ parent, dom.parentElement? element = some parent →
      (dom.elementChildren parent).length < 2147483648 := fun parent _ =>
    (hdom.forest.elementChildren_length_le_toList parent).trans_lt hsmall
  rw [mem_atAnchor_sign_iff hdom helement hbound hsign hread]
  refine exists_congr fun scope => exists_congr fun line => exists_congr fun last => ?_
  constructor
  · rintro ⟨hscope, hline, hhead, hlast, hrelated⟩
    have hlastElement := hline.isElement_of_mem (List.mem_of_getLast? hlast)
    have hleads := (hdom.forest.signLeads_iff helement hlastElement hsign).mpr ⟨hscope, hrelated⟩
    exact ⟨hleads, hline, hhead, hlast⟩
  · rintro ⟨hleads, hline, hhead, hlast⟩
    have hlastElement := hline.isElement_of_mem (List.mem_of_getLast? hlast)
    obtain ⟨hscope, hrelated⟩ := (hdom.forest.signLeads_iff helement hlastElement hsign).mp hleads
    exact ⟨hscope, hline, hhead, hlast, hrelated⟩

end Dom

/-! ### Queries -/

namespace Engine

variable {dom : Dom} {element : Handle} {c : Char} {spaces : List Char} {text clause : String}
  {selector : ComplexSelector}

/-- A clause that begins with a combinator has no steps. -/
theorem located_of_sign (hc : c ∈ ['>', '+', '~']) (rest : List Char) :
    Plan.located dom element (String.ofList (c :: rest)) =
      ⟨some element, String.ofList (c :: rest)⟩ := by
  have hopens : ∀ d ∈ ['!', '-'], Plan.opensWith (String.ofList (c :: rest)) d = false := by
    intro d hd
    rw [Plan.opensWith_ofList]
    simp only [List.mem_cons, List.not_mem_nil, or_false] at hc hd
    rcases hc with rfl | rfl | rfl <;> rcases hd with rfl | rfl <;> rfl
  rw [Plan.located, Plan.above_of_not_opensWith dom element (hopens '!' (by simp))]
  exact Plan.before_of_not_opensWith dom (hopens '-' (by simp))

/-- Such a clause is searched at the context. -/
theorem findAll_eq_atAnchor (dom : Dom) (element : Handle) (hc : c ∈ ['>', '+', '~'])
    {rest : List Char} (hclause : clause = String.ofList (c :: rest))
    (hlone : (ClauseList.ofText clause).clauses = [clause]) (engine : Engine) :
    ((findAll dom (.selector clause) element).run engine).1 =
      (Plan.atAnchor dom element clause).all dom := by
  have hrelative : Relative.isRelative clause = true := by
    rw [Relative.isRelative, hclause, String.toList_ofList, List.head?_cons, Option.any_some]
    simp only [List.mem_cons, List.not_mem_nil, or_false] at hc
    rcases hc with rfl | rfl | rfl <;> rfl
  have hne : clause ≠ "" := by
    rw [hclause]
    simp
  rw [yields_findAll_lone dom element hlone hrelative engine]
  have hlocated : Plan.located dom element clause = ⟨some element, clause⟩ := by
    rw [hclause, located_of_sign hc]
  rw [hlocated, Plan.ofSingle, Text.isEmpty_eq_false hne, if_neg (by simp)]

/-- **A combinator finds the relatives of its context.**  A clause that is the sign of a combinator,
with spaces or not, and one selector finds the nodes that begin a line for the selector whose last
element is where the sign leads to, in the order of the tree.  Below no element there are no siblings
to be found. -/
theorem findAll_sign (hdom : dom.Reachable) (hsmall : dom.nodes.toList.length < 2147483648)
    (helement : dom.isElement element = true) (hc : c ∈ ['>', '+', '~'])
    (hspaces : ∀ d ∈ spaces, Lexer.isSpace d = true)
    (hread : SelectorList.ofText text = .ok [selector])
    (hclause : clause.toList = c :: (spaces ++ text.toList))
    (hlone : (ClauseList.ofText clause).clauses = [clause]) (engine : Engine) :
    dom.InTreeOrder element ((findAll dom (.selector clause) element).run engine).1 ∧
      (∀ node, node ∈ ((findAll dom (.selector clause) element).run engine).1 ↔
        ∃ scope line last, dom.SignLeads element c scope last ∧
          dom.Line (some scope) selector.parts line ∧ line.head? = some node ∧
          line.getLast? = some last) ∧
      (c ≠ '>' → dom.parentElement? element = none →
        ((findAll dom (.selector clause) element).run engine).1 = []) := by
  have htext : clause = String.ofList (c :: (String.ofList (spaces ++ text.toList)).toList) := by
    rw [← String.toList_inj, hclause, String.toList_ofList, String.toList_ofList]
  have hfound := findAll_eq_atAnchor dom element hc htext hlone engine
  refine ⟨(inTreeOrder_findAll hdom engine clause element).1, ?_, ?_⟩
  · intro node
    have hspaced := SelectorList.ofText_spaces_append hspaces hread
    rw [hfound, htext, Dom.mem_atAnchor_iff_signLeads hdom hsmall helement hc hspaced]
  · intro hne halone
    have hsibling : c = '+' ∨ c = '~' := by simpa [hne] using hc
    rw [hfound, htext, Plan.atAnchor_alone hsibling halone]
    rfl

/-- The second item of the listing comes next to the first one. -/
theorem findAll_sign_listing : ⟨3, 0⟩ ∈ Dom.listing.findAll (.selector "+ li") ⟨2, 0⟩ := by
  have hread : SelectorList.ofText "li" = .ok [.compound [.tag "li"]] := by
    have htokens : Token.ofText "li" = .ok [.ident "li"] := by decide +kernel
    rw [SelectorList.ofText, htokens]
    rfl
  have hspaces : ∀ d ∈ [' '], Lexer.isSpace d = true := by simp [Lexer.isSpace]
  have hlone : (ClauseList.ofText "+ li").clauses = ["+ li"] := by decide +kernel
  obtain ⟨-, hmem, -⟩ := findAll_sign Dom.reachable_listing (by decide +kernel)
    (show Dom.listing.isElement ⟨2, 0⟩ = true from rfl) (by decide : '+' ∈ ['>', '+', '~']) hspaces
    hread rfl hlone {}
  have hitem : Dom.listing.matchesCompound (some ⟨1, 0⟩) [.tag "li"] ⟨3, 0⟩ = true := by
    decide +kernel
  exact (hmem ⟨3, 0⟩).mpr
    ⟨⟨1, 0⟩, [⟨3, 0⟩], ⟨3, 0⟩, .next (by decide +kernel) (by decide +kernel), .single hitem, rfl, rfl⟩

end Engine

end DomQuery
