import DomQuery.Proofs.Dom.Reachable
import DomQuery.Proofs.Matching.Query
import DomQuery.Proofs.Relative.Cutting
import DomQuery.Proofs.Relative.Engine

/-!
# Plain selectors

A text without relative clauses is completed, cut into clauses and put together again, and what
comes of it is searched.  For an ordinary text that completion leaves as it is, this changes
nothing: the engine finds what the selectors of the text find (`answersPlainly_of_isOrdinary`).

Completion does not leave every selector as it is.  It takes the hyphen at the end of a name for a
combinator that dangles, and then the engine searches for something else
(`not_answersPlainly_hyphen`).
-/

namespace DomQuery

namespace Engine

open Dom (exists_queryScope)

/-- Every engine finds at the node what the selectors of the text find there, and searches there
also for a query, if the node is a document. -/
structure AnswersPlainly (dom : Dom) (text : String) (node : Handle) : Prop where
  findAll : ∃ found, dom.querySelectorAll node text = .ok found ∧
    Yields (findAll dom (.selector text) node) found
  find : ∃ found, dom.querySelector node text = .ok found ∧
    Yields (find dom (.selector text) node) found
  queryAll : dom.isDocument node = true → ∃ found, dom.querySelectorAll node text = .ok found ∧
    Yields (queryAll dom (.selector text) (some node)) found
  query : dom.isDocument node = true → ∃ found, dom.querySelector node text = .ok found ∧
    Yields (query dom (.selector text) (some node)) found

variable {dom : Dom} {node : Handle} {text : String} {selectors : SelectorList}

theorem searched_of_isDocument (text : String) (h : dom.isDocument node = true) :
    searched dom text node = node := by
  simp [searched, h]

/-- The plan for a text without relative clauses searches at the context. -/
theorem planned_of_isRelative_eq_false (hplain : (ClauseList.ofText text).isRelative = false) :
    Plan.planned dom node (ClauseList.ofText text) =
      .search node (ClauseList.ofText text).normalized := by
  rw [Plan.planned, hplain]
  rfl

/-- **Plain selectors are answered as they are written.**  The text is ordinary, and completion
leaves it as it is. -/
theorem answersPlainly_of_isOrdinary
    (hnode : dom.isElement node = true ∨ dom.isDocument node = true)
    (hread : SelectorList.ofText text = .ok selectors)
    (hplain : (ClauseList.ofText text).isRelative = false)
    (hordinary : Relative.IsOrdinary text.toList) (hcomplete : Relative.complete text = text) :
    AnswersPlainly dom text node := by
  obtain ⟨scope, hscope⟩ := exists_queryScope hnode
  have hnormalized : SelectorList.ofText (ClauseList.ofText text).normalized = .ok selectors := by
    rw [ClauseList.normalized, ClauseList.ofText, hcomplete]
    exact Relative.ofText_intercalate_clauses hordinary hread
  have hne : text.isEmpty = false := by
    simpa using SelectorList.ne_empty_of_ofText hread
  have hall : ∃ found, dom.querySelectorAll node text = .ok found ∧
      Yields (Engine.findAll dom (.selector text) node) found := by
    refine ⟨_, Dom.querySelectorAll_of_ofText hread hscope, ?_⟩
    have hyields := yields_findAll dom text node
    rwa [hne, if_neg (by simp), planned_of_isRelative_eq_false hplain, Plan.all,
      Dom.querySelectorAll_of_ofText hnormalized hscope] at hyields
  have hfirst : ∃ found, dom.querySelector node text = .ok found ∧
      Yields (Engine.find dom (.selector text) node) found := by
    refine ⟨_, Dom.querySelector_of_ofText hread hscope, ?_⟩
    have hyields := yields_find dom text node
    rwa [hne, if_neg (by simp), planned_of_isRelative_eq_false hplain, Plan.first,
      Dom.querySelector_of_ofText hnormalized hscope] at hyields
  refine ⟨hall, hfirst, fun hdocument => ?_, fun hdocument => ?_⟩
  · obtain ⟨found, hfound, hyields⟩ := hall
    refine ⟨found, hfound, yields_queryAll ?_⟩
    rwa [searched_of_isDocument text hdocument]
  · obtain ⟨found, hfound, hyields⟩ := hfirst
    refine ⟨found, hfound, yields_query ?_⟩
    rwa [searched_of_isDocument text hdocument]

/-- A comma in quotes does not cut, and the signs of a comment in quotes begin none.  The comment
behind the name stands for nothing. -/
theorem answersPlainly_listing :
    AnswersPlainly Dom.listing "li/* all */ , [id='/*,*/']" ⟨0, 0⟩ := by
  have hordinary : Relative.IsOrdinary "li/* all */ , [id='/*,*/']".toList :=
    ⟨.of_left (by decide +kernel), by decide +kernel⟩
  cases hread : SelectorList.ofText "li/* all */ , [id='/*,*/']" with
  | error cause =>
      have hok : (SelectorList.ofText "li/* all */ , [id='/*,*/']").isOk = true := by
        decide +kernel
      exact absurd hok (by simp [hread, Except.isOk, Except.toBool])
  | ok selectors =>
      exact answersPlainly_of_isOrdinary (Or.inr rfl) hread (by decide +kernel) hordinary
        (by decide +kernel)

/-! ### A name that ends in a hyphen -/

/-- The edits that build a document with a root element `a-`. -/
def hyphenatedEdits : List Edit :=
  [.createDocument, .createElement "a-" [], .appendChild ⟨0, 0⟩ ⟨1, 0⟩]

def hyphenated : Dom :=
  (Dom.empty.run? hyphenatedEdits).getD Dom.empty

theorem reachable_hyphenated : hyphenated.Reachable :=
  Dom.Reachable.empty.run? (show Dom.empty.run? hyphenatedEdits = some hyphenated from rfl)

/-- A plain selector that finds the element, and the engine does not: it searches for `a- *`. -/
theorem not_answersPlainly_hyphen :
    hyphenated.Reachable ∧ hyphenated.isDocument ⟨0, 0⟩ = true ∧
      hyphenated.querySelectorAll ⟨0, 0⟩ "a-" = .ok [⟨1, 0⟩] ∧
      (ClauseList.ofText "a-").isRelative = false ∧
      Relative.complete "a-" = "a- *" ∧ hyphenated.findAll (.selector "a-") ⟨0, 0⟩ = [] ∧
      ¬ AnswersPlainly hyphenated "a-" ⟨0, 0⟩ := by
  have hnative : hyphenated.querySelectorAll ⟨0, 0⟩ "a-" = .ok [⟨1, 0⟩] := by decide +kernel
  have hengine : hyphenated.findAll (.selector "a-") ⟨0, 0⟩ = [] := by
    rw [Dom.findAll, yields_findAll hyphenated "a-" ⟨0, 0⟩ {}]
    decide +kernel
  refine ⟨reachable_hyphenated, rfl, hnative, by decide +kernel, by decide +kernel, hengine, ?_⟩
  intro hanswers
  obtain ⟨found, hfound, hyields⟩ := hanswers.findAll
  rw [hnative] at hfound
  have hnone : hyphenated.findAll (.selector "a-") ⟨0, 0⟩ = found := hyields {}
  rw [hengine, ← Except.ok.inj hfound] at hnone
  exact absurd hnone (by simp)

end Engine

end DomQuery
