import DomQuery.Proofs.Matching.Query
import DomQuery.Relative.Search

/-!
# What an engine is asked and what it answers

A computation that asks an engine asks it for the clauses of selectors and for the parts of anchor
clauses.  What it asks for and what comes out of it do not depend on what the engine remembers
(`Engine.Asks`, `Engine.Yields`): every step of a plan and every query is put together from the two
requests.  So plans and queries can be told without an engine (`Plan.planned`,
`Engine.yields_findAll`), and so can the texts that they ask for (`Plan.requests`,
`Engine.queryRequests`).  What a plan finds first is the first of all nodes that it finds
(`Plan.first_eq_head?_all`).
-/

namespace DomQuery

theorem Text.isEmpty_eq_false {text : String} (h : text ≠ "") : text.isEmpty = false := by
  rw [← Bool.not_eq_true, String.isEmpty_iff]
  exact h

/-! ### Computations -/

/-- What an engine can be asked for: the clauses of a selector, or the parts of an anchor clause. -/
inductive Request where
  | selector (text : String)
  | anchor (clause : String)
  deriving DecidableEq, Repr

namespace Engine

variable {α β : Type} {dom : Dom}

/-- From every engine, the computation makes the requests, in this order, and has the result. -/
inductive Asks : {α : Type} → EngineM α → List Request → α → Prop where
  | pure {α : Type} (value : α) : Asks (pure value) [] value
  | parse (text : String) : Asks (parse text) [.selector text] (ClauseList.ofText text)
  | parseAnchor (clause : String) :
      Asks (parseAnchor clause) [.anchor clause] (AnchorClause.ofText clause)
  | bind {α β : Type} {action : EngineM α} {next : α → EngineM β} {first second : List Request}
      {value : α} {result : β} : Asks action first value → Asks (next value) second result →
      Asks (action >>= next) (first ++ second) result

/-- From every engine the computation has this result. -/
def Yields (action : EngineM α) (value : α) : Prop :=
  ∀ engine, (action.run engine).1 = value

theorem Yields.bind {action : EngineM α} {next : α → EngineM β} {value : α} {result : β}
    (h : Yields action value) (hnext : Yields (next value) result) :
    Yields (action >>= next) result := by
  intro engine
  have hfirst := h engine
  have hsecond := hnext (action.run engine).2
  rw [← hfirst] at hsecond
  exact hsecond

theorem Asks.yields {action : EngineM α} {requests : List Request} {value : α}
    (h : Asks action requests value) : Yields action value := by
  induction h with
  | pure value => exact fun _ => rfl
  | parse text => exact fun engine => engine.selectors.get_fst text
  | parseAnchor clause => exact fun engine => engine.anchors.get_fst clause
  | bind _ _ hfirst hsecond => exact hfirst.bind hsecond

/-- A computation whose last step asks for nothing. -/
theorem Asks.bind_pure {action : EngineM α} {requests : List Request} {value : α}
    (h : Asks action requests value) (f : α → β) :
    Asks (action >>= fun value => Pure.pure (f value)) requests (f value) := by
  have hbind : Asks (action >>= fun value => Pure.pure (f value)) (requests ++ []) (f value) :=
    h.bind (.pure (f value))
  rwa [List.append_nil] at hbind

theorem asks_mapM {next : α → EngineM β} {requests : α → List Request} {result : α → β}
    (h : ∀ a, Asks (next a) (requests a) (result a)) (values : List α) :
    Asks (values.mapM next) (values.flatMap requests) (values.map result) := by
  induction values with
  | nil => exact .pure []
  | cons a values ih =>
      rw [List.mapM_cons, List.flatMap_cons, List.map_cons]
      exact (h a).bind (ih.bind_pure _)

end Engine

/-! ### Plans -/

namespace Plan

open Engine

variable (dom : Dom) (context : Handle)

/-- A clause after the step `!`, if it begins with one. -/
def above (clause : String) : Located :=
  if opensWith clause '!' then
    let step := AnchorClause.ofText clause
    ⟨anchorAbove dom context step.anchor, step.filter⟩
  else ⟨some context, clause⟩

/-- A clause after the step `-`, if its text begins with one and there is a node to take it
from. -/
def before (clause : Located) : Located :=
  match clause.anchor with
  | none => clause
  | some node =>
      if opensWith clause.rest '-' then
        let step := AnchorClause.ofText clause.rest
        ⟨anchorBefore dom node step.anchor, step.filter⟩
      else clause

/-- A clause after its steps. -/
def located (clause : String) : Located :=
  before dom (above dom context clause)

theorem above_of_opensWith {clause : String} (h : opensWith clause '!' = true) :
    above dom context clause = ⟨anchorAbove dom context (AnchorClause.ofText clause).anchor,
      (AnchorClause.ofText clause).filter⟩ := by
  rw [above, if_pos h]

theorem above_of_not_opensWith {clause : String} (h : opensWith clause '!' = false) :
    above dom context clause = ⟨some context, clause⟩ := by
  rw [above, h, if_neg (by simp)]

theorem before_of_opensWith {clause : String} (h : opensWith clause '-' = true) :
    before dom ⟨some context, clause⟩ =
      ⟨anchorBefore dom context (AnchorClause.ofText clause).anchor,
        (AnchorClause.ofText clause).filter⟩ := by
  rw [before]
  exact if_pos h

theorem before_of_not_opensWith {clause : Located} (h : opensWith clause.rest '-' = false) :
    before dom clause = clause := by
  rw [before]
  split
  · rfl
  · rw [h, if_neg (by simp)]

/-- What the step `!` asks for. -/
def aboveRequests (clause : String) : List Request :=
  if opensWith clause '!' then [.anchor clause] else []

/-- What the step `-` asks for. -/
def beforeRequests (clause : Located) : List Request :=
  match clause.anchor with
  | none => []
  | some _ => if opensWith clause.rest '-' then [.anchor clause.rest] else []

/-- What the steps of a clause ask for. -/
def locatedRequests (clause : String) : List Request :=
  aboveRequests clause ++ beforeRequests (above dom context clause)

theorem asks_stepAbove (clause : String) :
    Asks (stepAbove dom context clause) (aboveRequests clause) (above dom context clause) := by
  unfold stepAbove aboveRequests above
  split
  · exact (Asks.parseAnchor clause).bind_pure _
  · exact .pure _

theorem asks_stepBefore (clause : Located) :
    Asks (stepBefore dom clause) (beforeRequests clause) (before dom clause) := by
  unfold stepBefore beforeRequests before
  cases clause.anchor with
  | none => exact .pure _
  | some node =>
      dsimp only
      split
      · exact (Asks.parseAnchor clause.rest).bind_pure _
      · exact .pure _

theorem asks_locate (clause : String) : Asks (locate dom context clause)
    (locatedRequests dom context clause) (located dom context clause) :=
  (asks_stepAbove dom context clause).bind (asks_stepBefore dom _)

theorem yields_locate (clause : String) :
    Yields (locate dom context clause) (located dom context clause) :=
  (asks_locate dom context clause).yields

/-- The plan for a clause list at a context. -/
def planned (list : ClauseList) : Plan :=
  if list.isRelative then
    match list.clauses with
    | [clause] => ofSingle dom (located dom context clause)
    | clauses => ofSeveral dom context (clauses.map (located dom context))
  else .search context list.normalized

theorem planned_several {list : ClauseList} (hrelative : list.isRelative = true)
    (hseveral : 2 ≤ list.clauses.length) :
    planned dom context list = ofSeveral dom context (list.clauses.map (located dom context)) := by
  obtain ⟨text, clauses⟩ := list
  obtain _ | ⟨first, _ | ⟨second, clauses⟩⟩ := clauses
  · exact absurd hseveral (by simp)
  · exact absurd hseveral (by simp)
  · rw [planned, if_pos hrelative]

/-- What the plan for a clause list asks for: it takes the steps of relative clauses only. -/
def requests (list : ClauseList) : List Request :=
  if list.isRelative then list.clauses.flatMap (locatedRequests dom context) else []

theorem asks_ofClauses (list : ClauseList) : Asks (ofClauses dom list context)
    (requests dom context list) (planned dom context list) := by
  have hseveral : ∀ clauses : List String, Asks
      (clauses.mapM (locate dom context) >>= fun found => pure (ofSeveral dom context found))
      (clauses.flatMap (locatedRequests dom context))
      (ofSeveral dom context (clauses.map (located dom context))) :=
    fun clauses => (asks_mapM (asks_locate dom context) clauses).bind_pure _
  unfold ofClauses requests planned
  split
  · match list.clauses with
    | [] => exact hseveral []
    | [clause] =>
        rw [List.flatMap_singleton]
        exact (asks_locate dom context clause).bind_pure _
    | first :: second :: rest => exact hseveral (first :: second :: rest)
  · exact .pure _

/-- A clause without an anchor finds nothing. -/
theorem ofSingle_none (dom : Dom) (rest : String) : ofSingle dom ⟨none, rest⟩ = .answer none := by
  rw [ofSingle]
  split <;> rfl

/-- A plan finds the first of all nodes that it finds. -/
theorem first_eq_head?_all (dom : Dom) (plan : Plan) : plan.first dom = (plan.all dom).head? := by
  cases plan with
  | answer found => cases found <;> rfl
  | search scope selector =>
      rw [first, all, Dom.querySelector_eq]
      cases dom.querySelectorAll scope selector <;> rfl

end Plan

/-! ### Queries -/

namespace Engine

theorem asks_plan (dom : Dom) (text : String) (context : Handle) :
    Asks (plan dom text context)
      (.selector text :: Plan.requests dom context (ClauseList.ofText text))
      (Plan.planned dom context (ClauseList.ofText text)) := by
  rw [← List.singleton_append, plan]
  exact (Asks.parse text).bind (Plan.asks_ofClauses dom context (ClauseList.ofText text))

/-- What a query at the context asks for: an empty text is not looked at. -/
def findRequests (dom : Dom) (text : String) (context : Handle) : List Request :=
  if text.isEmpty then []
  else .selector text :: Plan.requests dom context (ClauseList.ofText text)

theorem asks_findAll (dom : Dom) (text : String) (context : Handle) :
    Asks (findAll dom (.selector text) context) (findRequests dom text context)
      (if text.isEmpty then []
       else (Plan.planned dom context (ClauseList.ofText text)).all dom) := by
  simp only [findAll, findRequests]
  split
  · exact .pure _
  · exact (asks_plan dom text context).bind_pure _

theorem asks_find (dom : Dom) (text : String) (context : Handle) :
    Asks (find dom (.selector text) context) (findRequests dom text context)
      (if text.isEmpty then none
       else (Plan.planned dom context (ClauseList.ofText text)).first dom) := by
  simp only [find, findRequests]
  split
  · exact .pure _
  · exact (asks_plan dom text context).bind_pure _

/-- A query for all nodes finds what its plan finds. -/
theorem yields_findAll (dom : Dom) (text : String) (context : Handle) :
    Yields (findAll dom (.selector text) context)
      (if text.isEmpty then []
       else (Plan.planned dom context (ClauseList.ofText text)).all dom) :=
  (asks_findAll dom text context).yields

/-- A query for one node finds what its plan finds first. -/
theorem yields_find (dom : Dom) (text : String) (context : Handle) :
    Yields (find dom (.selector text) context)
      (if text.isEmpty then none
       else (Plan.planned dom context (ClauseList.ofText text)).first dom) :=
  (asks_find dom text context).yields

/-- The text of a lone relative clause is planned as this clause. -/
theorem planned_lone {clause : String} (dom : Dom) (context : Handle)
    (hlone : (ClauseList.ofText clause).clauses = [clause])
    (hrelative : Relative.isRelative clause = true) :
    clause.isEmpty = false ∧ Plan.planned dom context (ClauseList.ofText clause) =
      Plan.ofSingle dom (Plan.located dom context clause) := by
  have hne : clause ≠ "" := by
    rintro rfl
    exact absurd hrelative (by decide)
  have hlist : (ClauseList.ofText clause).isRelative = true := by
    rw [ClauseList.isRelative, hlone, List.any_cons, hrelative, Bool.true_or]
  refine ⟨Text.isEmpty_eq_false hne, ?_⟩
  rw [Plan.planned, if_pos hlist, hlone]

/-- What a lone relative clause finds. -/
theorem yields_findAll_lone {clause : String} (dom : Dom) (context : Handle)
    (hlone : (ClauseList.ofText clause).clauses = [clause])
    (hrelative : Relative.isRelative clause = true) :
    Yields (findAll dom (.selector clause) context)
      ((Plan.ofSingle dom (Plan.located dom context clause)).all dom) := by
  obtain ⟨hne, hplan⟩ := planned_lone dom context hlone hrelative
  have hfound := yields_findAll dom clause context
  rwa [hne, hplan, if_neg (by simp)] at hfound

theorem yields_find_lone {clause : String} (dom : Dom) (context : Handle)
    (hlone : (ClauseList.ofText clause).clauses = [clause])
    (hrelative : Relative.isRelative clause = true) :
    Yields (find dom (.selector clause) context)
      ((Plan.ofSingle dom (Plan.located dom context clause)).first dom) := by
  obtain ⟨hne, hplan⟩ := planned_lone dom context hlone hrelative
  have hfound := yields_find dom clause context
  rwa [hne, hplan, if_neg (by simp)] at hfound

/-- Where a query searches. -/
def searched (dom : Dom) (text : String) (context : Handle) : Handle :=
  if text.isEmpty || dom.isDocument context then context
  else if (ClauseList.ofText text).isRelative then context
  else dom.treeTop context

/-- What a query asks for to tell where it searches. -/
def searchRequests (dom : Dom) (text : String) (context : Handle) : List Request :=
  if text.isEmpty || dom.isDocument context then [] else [.selector text]

theorem asks_searchContext (dom : Dom) (text : String) (context : Handle) :
    Asks (searchContext dom text context) (searchRequests dom text context)
      (searched dom text context) := by
  unfold searchContext searchRequests searched
  split
  · exact .pure _
  · rw [← List.append_nil [Request.selector text]]
    refine (Asks.parse text).bind ?_
    split
    · exact .pure _
    · exact .pure _

theorem yields_searchContext (dom : Dom) (text : String) (context : Handle) :
    Yields (searchContext dom text context) (searched dom text context) :=
  (asks_searchContext dom text context).yields

theorem yields_queryAll {dom : Dom} {text : String} {context : Handle} {found : List Handle}
    (h : Yields (findAll dom (.selector text) (searched dom text context)) found) :
    Yields (queryAll dom (.selector text) (some context)) found :=
  (yields_searchContext dom text context).bind h

theorem yields_query {dom : Dom} {text : String} {context : Handle} {found : Option Handle}
    (h : Yields (find dom (.selector text) (searched dom text context)) found) :
    Yields (query dom (.selector text) (some context)) found :=
  (yields_searchContext dom text context).bind h

/-- What a query asks for that has a context or takes the first document. -/
def queryRequests (dom : Dom) (text : String) (context : Option Handle) : List Request :=
  match context.or dom.firstDocument? with
  | none => []
  | some node => searchRequests dom text node ++ findRequests dom text (searched dom text node)

theorem asks_queryAll (dom : Dom) (text : String) (context : Option Handle) :
    Asks (queryAll dom (.selector text) context) (queryRequests dom text context)
      (match context.or dom.firstDocument? with
        | none => []
        | some node =>
            if text.isEmpty then []
            else (Plan.planned dom (searched dom text node) (ClauseList.ofText text)).all dom) := by
  simp only [queryAll, queryRequests]
  cases context.or dom.firstDocument? with
  | none => exact .pure []
  | some node => exact (asks_searchContext dom text node).bind (asks_findAll dom text _)

theorem asks_query (dom : Dom) (text : String) (context : Option Handle) :
    Asks (query dom (.selector text) context) (queryRequests dom text context)
      (match context.or dom.firstDocument? with
        | none => none
        | some node =>
            if text.isEmpty then none
            else (Plan.planned dom (searched dom text node) (ClauseList.ofText text)).first dom) := by
  simp only [query, queryRequests]
  cases context.or dom.firstDocument? with
  | none => exact .pure none
  | some node => exact (asks_searchContext dom text node).bind (asks_find dom text _)

/-! ### One node and all nodes -/

/-- An empty text finds nothing, and any other what its plan finds: first of all what the plan
finds first. -/
theorem first_of_text_eq_head? (dom : Dom) (text : String) (plan : Plan) :
    (if text.isEmpty then none else plan.first dom) =
      (if text.isEmpty then [] else plan.all dom).head? := by
  split
  · rfl
  · exact Plan.first_eq_head?_all dom plan

/-- **A query for one node finds the first of all nodes.**  The two queries may ask engines that
remember different things. -/
theorem finds_first_of_all (dom : Dom) (target : Target) (first second : Engine) :
    (∀ context, ((query dom target context).run first).1 =
      ((queryAll dom target context).run second).1.head?) ∧
    ∀ context, ((find dom target context).run first).1 =
      ((findAll dom target context).run second).1.head? := by
  cases target with
  | node handle => exact ⟨fun _ => rfl, fun _ => rfl⟩
  | selector text =>
      constructor
      · intro context
        rw [(asks_query dom text context).yields first,
          (asks_queryAll dom text context).yields second]
        cases context.or dom.firstDocument? with
        | none => rfl
        | some node => exact first_of_text_eq_head? dom text _
      · intro context
        rw [yields_find dom text context first, yields_findAll dom text context second]
        exact first_of_text_eq_head? dom text _

end Engine

end DomQuery
