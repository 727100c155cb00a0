import DomQuery.Proofs.Relative.Scoped
import DomQuery.Proofs.Relative.Engine
import DomQuery.Proofs.Text.Trim

/-!
# Where the steps of a clause lead

A lone clause that begins with the steps `!` and `-` finds the element that they lead to, and with a
filter behind them what a plain query finds below this element (`Engine.findAll_steps`).

The specification of a step asks the tree alone: `Dom.nearestAbove` is the first match in the line of
parent elements, and `Dom.siblingBefore` the element sibling before, if it matches.  On the side of
the text, a step is a word behind its marker, and what stands behind the blank is left for later
(`AnchorClause.ofText_word`).
-/

namespace DomQuery

/-! ### The specification -/

/-- A text that is not empty and has no blank in it. -/
structure Word where
  text : String
  ne_empty : text ≠ ""
  isBlank_eq : ∀ c ∈ text.toList, Text.isBlank c = false

/-- A trimmed text that is not empty and begins with no marker. -/
structure FilterText where
  text : String
  ne_empty : text ≠ ""
  trim_eq : Text.trim text.toList = text.toList
  isMarker_eq : ∀ c ∈ text.toList.head?, Relative.isMarker c = false

/-- The steps at the beginning of a clause. -/
inductive Steps where
  | above (selector : Word)
  | before (selector : Word)
  | aboveBefore (selector sibling : Word)

/-- The steps as they are written. -/
def Steps.text : Steps → String
  | above selector => "!" ++ selector.text
  | before selector => "-" ++ selector.text
  | aboveBefore selector sibling => "!" ++ selector.text ++ " -" ++ sibling.text

namespace Dom

/-- The nearest match in the line of parent elements, where `:scope` stands for the first of them. -/
def nearestAbove (dom : Dom) (node : Handle) (selector : String) : Option Handle :=
  match SelectorList.ofText selector with
  | .ok selectors =>
      (dom.elementAncestors node).find? (dom.matchesAny (dom.parentElement? node) selectors)
  | .error _ => none

/-- The element sibling before the node, if it matches with `:scope` standing for it. -/
def siblingBefore (dom : Dom) (node : Handle) (selector : String) : Option Handle :=
  match SelectorList.ofText selector with
  | .ok selectors =>
      (dom.previousElement? node).filter fun sibling =>
        dom.matchesAny (some sibling) selectors sibling
  | .error _ => none

end Dom

/-- Where the steps lead to from a node. -/
def Steps.anchor (dom : Dom) (node : Handle) : Steps → Option Handle
  | above selector => dom.nearestAbove node selector.text
  | before selector => dom.siblingBefore node selector.text
  | aboveBefore selector sibling =>
      (dom.nearestAbove node selector.text).bind fun found => dom.siblingBefore found sibling.text

/-! ### Steps in the tree -/

namespace Plan

variable {dom : Dom} {kids : Handle → List Handle}

theorem anchorAbove_eq (h : Dom.Forest dom kids) (node : Handle) (selector : String) :
    anchorAbove dom node selector = dom.nearestAbove node selector := by
  cases hparent : dom.parentElement? node with
  | none =>
      have hline : dom.elementAncestors node = [] := by
        rw [Dom.elementAncestors, hparent]
        rfl
      rw [anchorAbove, hparent, Option.bind_none, Dom.nearestAbove, hline]
      cases SelectorList.ofText selector <;> rfl
  | some parent =>
      obtain ⟨habove, helement⟩ := Option.filter_eq_some_iff.mp hparent
      have hline : dom.elementAncestors node =
          (parent :: dom.ancestors parent).takeWhile dom.isElement := by
        rw [h.elementAncestors_eq, h.ancestors_of_parent habove]
      rw [anchorAbove, hparent, Option.bind_some, Dom.nearestAbove, hline, hparent]
      cases hread : SelectorList.ofText selector with
      | ok selectors => rw [Dom.closest_of_ofText helement hread]
      | error cause => rw [Dom.closest_of_error hread]

theorem anchorBefore_eq (dom : Dom) (node : Handle) (selector : String) :
    anchorBefore dom node selector = dom.siblingBefore node selector := by
  rw [anchorBefore, Dom.siblingBefore]
  cases hprevious : dom.previousElement? node with
  | none => cases SelectorList.ofText selector <;> rfl
  | some sibling =>
      have helement : dom.isElement sibling = true := List.find?_some hprevious
      cases hread : SelectorList.ofText selector with
      | ok selectors =>
          simp only [Option.filter_some, Dom.elementMatches_of_ofText helement hread]
      | error cause =>
          simp only [Option.filter_some, Dom.elementMatches_of_error hread]
          rfl

end Plan

/-! ### Steps in the text -/

/-- What can stand behind a word, and the text that is left of it: nothing, or a blank and a trimmed
text. -/
inductive Tail : List Char → String → Prop where
  | nothing : Tail [] ""
  | text {rest : String} : rest ≠ "" → Text.trim rest.toList = rest.toList →
      Tail (' ' :: rest.toList) rest

namespace Word

variable {tail : List Char} {rest : String}

theorem exists_head (word : Word) :
    ∃ c more, word.text.toList = c :: more ∧ Text.isBlank c = false := by
  obtain ⟨c, more, heq⟩ := List.exists_cons_of_ne_nil
    (mt String.toList_eq_nil_iff.mp word.ne_empty)
  exact ⟨c, more, heq, word.isBlank_eq c (by simp [heq])⟩

theorem getLast?_append (word : Word) (htail : Tail tail rest) :
    ∀ c ∈ (word.text.toList ++ tail).getLast?, Text.isBlank c = false := by
  cases htail with
  | nothing =>
      intro c hc
      rw [List.append_nil] at hc
      exact word.isBlank_eq c (List.mem_of_getLast? hc)
  | text hne htrim =>
      have hne' : rest.toList ≠ [] := mt String.toList_eq_nil_iff.mp hne
      intro c hc
      rw [List.getLast?_append_of_ne_nil _ (List.cons_ne_nil _ _),
        List.getLast?_cons_of_ne_nil hne', ← htrim] at hc
      exact Text.of_mem_getLast?_trim hc

theorem trim_append (word : Word) (htail : Tail tail rest) :
    Text.trim (word.text.toList ++ tail) = word.text.toList ++ tail := by
  apply Text.trim_eq_self
  · obtain ⟨d, more, heq, hd⟩ := word.exists_head
    intro c hc
    rw [heq] at hc
    cases hc
    exact hd
  · exact word.getLast?_append htail

end Word

/-- A word behind the marker of a step is its anchor, and what stands behind the word is left. -/
theorem AnchorClause.ofText_word (c : Char) (word : Word) {tail : List Char} {rest : String}
    (htail : Tail tail rest) :
    AnchorClause.ofText (String.ofList (c :: (word.text.toList ++ tail))) = ⟨word.text, rest⟩ := by
  rw [AnchorClause.ofText, String.toList_ofList, List.drop_one, List.tail_cons,
    word.trim_append htail]
  cases htail with
  | nothing =>
      rw [List.append_nil, Text.cutAtBlank_of_forall word.isBlank_eq, String.ofList_toList]
      rfl
  | text _ htrim =>
      rw [Text.cutAtBlank_append word.isBlank_eq (by decide), htrim, String.ofList_toList,
        String.ofList_toList]

namespace Plan

variable {dom : Dom} {kids : Handle → List Handle} {tail : List Char} {rest : String}

/-- A word behind the marker of `-`, taken as what is left of a clause. -/
theorem before_word (dom : Dom) (node : Handle) (word : Word) (htail : Tail tail rest) :
    before dom ⟨some node, String.ofList ('-' :: (word.text.toList ++ tail))⟩ =
      ⟨dom.siblingBefore node word.text, rest⟩ := by
  have hopens : opensWith (String.ofList ('-' :: (word.text.toList ++ tail))) '-' = true := by
    rw [opensWith_ofList]
    rfl
  rw [before_of_opensWith dom node hopens, AnchorClause.ofText_word '-' word htail, anchorBefore_eq]

theorem above_word (h : Dom.Forest dom kids) (node : Handle) (word : Word)
    (htail : Tail tail rest) :
    above dom node (String.ofList ('!' :: (word.text.toList ++ tail))) =
      ⟨dom.nearestAbove node word.text, rest⟩ := by
  have hopens : opensWith (String.ofList ('!' :: (word.text.toList ++ tail))) '!' = true := by
    rw [opensWith_ofList]
    rfl
  rw [above_of_opensWith dom node hopens, AnchorClause.ofText_word '!' word htail,
    anchorAbove_eq h]

/-- The marker `-` with a word and a tail, standing behind a blank itself. -/
theorem tail_word (word : Word) (htail : Tail tail rest) :
    Tail (' ' :: '-' :: (word.text.toList ++ tail))
      (String.ofList ('-' :: (word.text.toList ++ tail))) := by
  have htext : (String.ofList ('-' :: (word.text.toList ++ tail))).toList =
      '-' :: (word.text.toList ++ tail) := String.toList_ofList
  have hlast : ∀ c ∈ ('-' :: (word.text.toList ++ tail)).getLast?, Text.isBlank c = false := by
    obtain ⟨d, more, heq, -⟩ := word.exists_head
    intro c hc
    rw [heq, List.cons_append, List.getLast?_cons_cons, ← List.cons_append, ← heq] at hc
    exact word.getLast?_append htail c hc
  have htrim : Text.trim ('-' :: (word.text.toList ++ tail)) = '-' :: (word.text.toList ++ tail) := by
    refine Text.trim_eq_self (fun c hc => ?_) hlast
    cases hc
    decide
  have hne : String.ofList ('-' :: (word.text.toList ++ tail)) ≠ "" := by
    intro hempty
    rw [hempty] at htext
    exact absurd htext (by simp)
  have hall := Tail.text hne (by rw [htext, htrim])
  rwa [htext] at hall

/-- The steps of a clause lead where the specification says, and leave what stands behind them. -/
theorem ofSingle_steps (h : Dom.Forest dom kids) (steps : Steps) (node : Handle)
    (htail : Tail tail rest) (hrest : opensWith rest '-' = false) :
    ofSingle dom (located dom node (String.ofList (steps.text.toList ++ tail))) =
      ofSingle dom ⟨steps.anchor dom node, rest⟩ := by
  cases steps with
  | above selector =>
      have htext : (Steps.above selector).text.toList = '!' :: selector.text.toList := by
        simp [Steps.text]
      have hbefore : before dom ⟨dom.nearestAbove node selector.text, rest⟩ =
          ⟨dom.nearestAbove node selector.text, rest⟩ := before_of_not_opensWith dom hrest
      rw [htext, List.cons_append, located, above_word h node selector htail, hbefore]
      rfl
  | before selector =>
      have htext : (Steps.before selector).text.toList = '-' :: selector.text.toList := by
        simp [Steps.text]
      have hopens : opensWith (String.ofList ('-' :: (selector.text.toList ++ tail))) '!' = false := by
        rw [opensWith_ofList]
        rfl
      rw [htext, List.cons_append, located, above_of_not_opensWith dom node hopens,
        before_word dom node selector htail]
      rfl
  | aboveBefore selector sibling =>
      have htext : (Steps.aboveBefore selector sibling).text.toList ++ tail =
          '!' :: (selector.text.toList ++ ' ' :: '-' :: (sibling.text.toList ++ tail)) := by
        simp [Steps.text]
      rw [htext, located, above_word h node selector (tail_word sibling htail), Steps.anchor]
      cases dom.nearestAbove node selector.text with
      | none => rw [before, Option.bind_none, ofSingle_none, ofSingle_none]
      | some found => rw [before_word dom found sibling htail, Option.bind_some]

end Plan

theorem FilterText.opensWith_eq (filter : FilterText) {c : Char} (hc : Relative.isMarker c = true) :
    Plan.opensWith filter.text c = false := by
  rw [Plan.opensWith, beq_eq_false_iff_ne]
  intro hhead
  rw [filter.isMarker_eq c hhead] at hc
  exact absurd hc (by simp)

namespace Plan

/-- Below an anchor the filter is a plain query. -/
theorem all_ofSingle_filter (dom : Dom) (anchor : Option Handle) (filter : FilterText) :
    (ofSingle dom ⟨anchor, filter.text⟩).all dom =
      anchor.elim [] fun found => (dom.querySelectorAll found filter.text).toOption.getD [] := by
  cases anchor with
  | none =>
      rw [ofSingle_none]
      rfl
  | some found =>
      have hplan : ofSingle dom ⟨some found, filter.text⟩ = .search found filter.text := by
        simp [ofSingle, atAnchor, Text.isEmpty_eq_false filter.ne_empty,
          filter.opensWith_eq (by decide : Relative.isMarker '+' = true),
          filter.opensWith_eq (by decide : Relative.isMarker '~' = true),
          filter.opensWith_eq (by decide : Relative.isMarker '>' = true)]
      rw [hplan, all, Option.elim_some]
      cases dom.querySelectorAll found filter.text <;> rfl

end Plan

/-! ### Queries -/

namespace Engine

variable {dom : Dom}

/-- **Steps resolve as specified.**  A lone clause of steps alone finds the element that they lead
to.  With a filter behind the steps it finds what the plain query for the filter finds below this
element, and nothing where the steps lead nowhere or the filter is no selector.  A query for one node
finds the first of them. -/
theorem findAll_steps (hdom : dom.Reachable) (steps : Steps) (context : Handle) (engine : Engine) :
    ((ClauseList.ofText steps.text).clauses = [steps.text] →
      ((findAll dom (.selector steps.text) context).run engine).1 =
        (steps.anchor dom context).toList ∧
      ((find dom (.selector steps.text) context).run engine).1 = steps.anchor dom context) ∧
    ∀ filter : FilterText,
      (ClauseList.ofText (steps.text ++ " " ++ filter.text)).clauses =
          [steps.text ++ " " ++ filter.text] →
        ((findAll dom (.selector (steps.text ++ " " ++ filter.text)) context).run engine).1 =
          ((steps.anchor dom context).elim [] fun anchor =>
            (dom.querySelectorAll anchor filter.text).toOption.getD []) ∧
        ((find dom (.selector (steps.text ++ " " ++ filter.text)) context).run engine).1 =
          ((steps.anchor dom context).elim [] fun anchor =>
            (dom.querySelectorAll anchor filter.text).toOption.getD []).head? := by
  have hmarker : ∀ tail, Relative.isRelative (String.ofList (steps.text.toList ++ tail)) = true := by
    intro tail
    cases steps <;> simp [Steps.text, Relative.isRelative, Relative.isMarker]
  constructor
  · intro hlone
    have hplan : (Plan.ofSingle dom (Plan.located dom context steps.text)) =
        .answer (steps.anchor dom context) := by
      have hsteps := Plan.ofSingle_steps hdom.forest steps context .nothing rfl
      rw [List.append_nil, String.ofList_toList] at hsteps
      rw [hsteps]
      rfl
    have hrelative := hmarker []
    rw [List.append_nil, String.ofList_toList] at hrelative
    rw [yields_findAll_lone dom context hlone hrelative engine,
      yields_find_lone dom context hlone hrelative engine, hplan]
    exact ⟨rfl, rfl⟩
  · intro filter hlone
    have htext : steps.text ++ " " ++ filter.text =
        String.ofList (steps.text.toList ++ ' ' :: filter.text.toList) := by
      rw [← String.toList_inj]
      simp
    have hopens : Plan.opensWith filter.text '-' = false := filter.opensWith_eq rfl
    have hplan := Plan.ofSingle_steps hdom.forest steps context
      (.text filter.ne_empty filter.trim_eq) hopens
    have hrelative := hmarker (' ' :: filter.text.toList)
    rw [← htext] at hplan hrelative
    rw [yields_findAll_lone dom context hlone hrelative engine,
      yields_find_lone dom context hlone hrelative engine, hplan, Plan.first_eq_head?_all,
      Plan.all_ofSingle_filter]
    exact ⟨rfl, rfl⟩

/-- From the second item of the listing to the first one, and to the items of its list. -/
theorem findAll_steps_listing :
    Dom.listing.findAll (.selector "-li") ⟨3, 0⟩ = [⟨2, 0⟩] ∧
      Dom.listing.findAll (.selector "!ul li") ⟨3, 0⟩ = [⟨2, 0⟩, ⟨3, 0⟩] := by
  let list : Word := ⟨"ul", by decide, by simp [Text.isBlank]⟩
  let item : Word := ⟨"li", by decide, by simp [Text.isBlank]⟩
  let filter : FilterText := ⟨"li", by decide, by decide, by simp [Relative.isMarker]⟩
  have hbefore : (Steps.before item).text = "-li" := by decide
  have habove : (Steps.above list).text ++ " " ++ filter.text = "!ul li" := by decide
  obtain ⟨hsteps, -⟩ := findAll_steps Dom.reachable_listing (.before item) ⟨3, 0⟩ {}
  obtain ⟨-, hfilter⟩ := findAll_steps Dom.reachable_listing (.above list) ⟨3, 0⟩ {}
  constructor
  · have hfound := (hsteps (by rw [hbefore]; decide +kernel)).1
    rw [hbefore] at hfound
    exact hfound.trans (by decide +kernel)
  · have hfound := (hfilter filter (by rw [habove]; decide +kernel)).1
    rw [habove] at hfound
    exact hfound.trans (by decide +kernel)

end Engine

end DomQuery
