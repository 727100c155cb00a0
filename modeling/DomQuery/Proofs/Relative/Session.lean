import DomQuery.Proofs.Relative.Engine
import Mathlib.Data.Finset.Card

/-!
# What an engine remembers

An engine is called many times while the trees that it looks at change.  In a session any number
of document object models change in any way between the calls of one engine, and the session keeps
account of what the engine was asked for (`Session.step`).

The tables of the engine then hold the results for the texts that were asked for, and for no
others (`Engine.Remembers`).  A call that makes requests adds their texts (`Asks.remembers`), and
changes of the trees add none, so this holds throughout a session.  That the answers do not depend
on the tables has been shown for every single computation (`Asks.yields`).
-/

namespace DomQuery

/-! ### Tables -/

/-- One more text that is new makes one more distinct text. -/
theorem card_toFinset_concat {texts : List String} {text : String} (hnew : text ∉ texts) :
    (texts ++ [text]).toFinset.card = texts.toFinset.card + 1 := by
  have hset : (texts ++ [text]).toFinset = insert text texts.toFinset := by
    ext other
    simp
  rw [hset, Finset.card_insert_of_notMem (by simpa using hnew)]

namespace Memo

variable {β : Type} {f : String → β} {memo : Memo f} {texts : List String}

/-- The table without results. -/
def empty (f : String → β) : Memo f where
  entries := ∅

/-- The table holds the results for the texts, and for no others. -/
structure Remembers (memo : Memo f) (texts : List String) : Prop where
  getElem?_eq_some_iff : ∀ text value,
    memo.entries[text]? = some value ↔ text ∈ texts ∧ value = f text
  size_eq : memo.size = texts.toFinset.card

theorem remembers_empty (f : String → β) : (empty f).Remembers [] where
  getElem?_eq_some_iff text value := by simp [empty]
  size_eq := rfl

theorem Remembers.mem_entries_iff (h : memo.Remembers texts) (text : String) :
    text ∈ memo.entries ↔ text ∈ texts := by
  rw [Std.HashMap.mem_iff_isSome_getElem?, Option.isSome_iff_exists]
  simp [h.getElem?_eq_some_iff]

/-- Asking for a text adds it to the texts with a remembered result. -/
theorem Remembers.get (h : memo.Remembers texts) (text : String) :
    (memo.get text).2.Remembers (texts ++ [text]) := by
  unfold Memo.get
  split
  · next value hvalue =>
      have hmem : text ∈ texts := ((h.getElem?_eq_some_iff text value).mp hvalue).1
      have hsame : ∀ other, other ∈ texts ++ [text] ↔ other ∈ texts := by
        intro other
        rw [List.mem_append, List.mem_singleton, or_iff_left_of_imp]
        rintro rfl
        exact hmem
      refine ⟨fun other result => ?_, ?_⟩
      · rw [h.getElem?_eq_some_iff, hsame]
      · have hset : (texts ++ [text]).toFinset = texts.toFinset := by
          ext other
          simp only [List.mem_toFinset, hsame]
        rw [hset, h.size_eq]
  · next hnone =>
      have hnew : text ∉ texts := by
        rw [← h.mem_entries_iff, Std.HashMap.mem_iff_isSome_getElem?, hnone]
        simp
      refine ⟨fun other result => ?_, ?_⟩
      · rw [Memo.insert, Std.HashMap.getElem?_insert]
        by_cases heq : text = other
        · simp [heq, eq_comm]
        · simp [heq, Ne.symm heq, h.getElem?_eq_some_iff]
      · rw [card_toFinset_concat hnew, ← h.size_eq, Memo.size, Memo.insert,
          Std.HashMap.size_insert, if_neg (mt (h.mem_entries_iff text).mp hnew), Memo.size]

end Memo

/-! ### Engines -/

/-- The text of a request for the clauses of a selector. -/
def Request.text? : Request → Option String
  | selector text => some text
  | anchor _ => none

/-- The text of a request for the parts of an anchor clause. -/
def Request.clause? : Request → Option String
  | selector _ => none
  | anchor clause => some clause

namespace Engine

/-- The engine that remembers nothing. -/
def empty : Engine where
  selectors := Memo.empty ClauseList.ofText
  anchors := Memo.empty AnchorClause.ofText

/-- The engine remembers what it was asked for, and nothing else. -/
structure Remembers (engine : Engine) (requests : List Request) : Prop where
  selectors : engine.selectors.Remembers (requests.filterMap Request.text?)
  anchors : engine.anchors.Remembers (requests.filterMap Request.clause?)

theorem remembers_empty : empty.Remembers [] :=
  ⟨Memo.remembers_empty _, Memo.remembers_empty _⟩

/-- A computation adds the requests that it makes. -/
theorem Asks.remembers {α : Type} {action : EngineM α} {requests asked : List Request}
    {value : α} (h : Asks action requests value) {engine : Engine}
    (hengine : engine.Remembers asked) :
    (action.run engine).2.Remembers (asked ++ requests) := by
  induction h generalizing engine asked with
  | pure value =>
      rw [List.append_nil]
      exact hengine
  | parse text =>
      refine ⟨?_, ?_⟩
      · rw [List.filterMap_append]
        exact hengine.selectors.get text
      · rw [List.filterMap_append]
        exact (List.append_nil _).symm ▸ hengine.anchors
  | parseAnchor clause =>
      refine ⟨?_, ?_⟩
      · rw [List.filterMap_append]
        exact (List.append_nil _).symm ▸ hengine.selectors
      · rw [List.filterMap_append]
        exact hengine.anchors.get clause
  | @bind α β action next first second value result hfirst _ ihfirst ihsecond =>
      have hafter := ihsecond (ihfirst hengine)
      rw [List.append_assoc, ← hfirst.yields engine] at hafter
      exact hafter

end Engine

/-! ### Calls -/

/-- A call of an engine. -/
inductive Call where
  | parse (text : String)
  | parseAnchor (clause : String)
  | plan (list : ClauseList) (context : Handle)
  | find (target : Target) (context : Handle)
  | findAll (target : Target) (context : Handle)
  | query (target : Target) (context : Option Handle)
  | queryAll (target : Target) (context : Option Handle)

/-- What a call returns. -/
inductive Answer where
  | clauses (list : ClauseList)
  | anchor (clause : AnchorClause)
  | plan (plan : Plan)
  | node (found : Option Handle)
  | nodes (found : List Handle)
  deriving DecidableEq, Repr

namespace Call

open Engine

/-- The computation of a call. -/
def action (dom : Dom) : Call → EngineM Answer
  | parse text => do pure (.clauses (← Engine.parse text))
  | parseAnchor clause => do pure (.anchor (← Engine.parseAnchor clause))
  | plan list context => do pure (.plan (← Plan.ofClauses dom list context))
  | find target context => do pure (.node (← Engine.find dom target context))
  | findAll target context => do pure (.nodes (← Engine.findAll dom target context))
  | query target context => do pure (.node (← Engine.query dom target context))
  | queryAll target context => do pure (.nodes (← Engine.queryAll dom target context))

/-- What an engine that remembers nothing returns. -/
def answer (dom : Dom) (call : Call) : Answer :=
  ((call.action dom).run Engine.empty).1

/-- What a call asks for, directly or on the way to its answer.  A node is its own answer. -/
def requests (dom : Dom) : Call → List Request
  | parse text => [.selector text]
  | parseAnchor clause => [.anchor clause]
  | plan list context => Plan.requests dom context list
  | find (.node _) _ => []
  | find (.selector text) context => findRequests dom text context
  | findAll (.node _) _ => []
  | findAll (.selector text) context => findRequests dom text context
  | query (.node _) _ => []
  | query (.selector text) context => queryRequests dom text context
  | queryAll (.node _) _ => []
  | queryAll (.selector text) context => queryRequests dom text context

theorem exists_asks (dom : Dom) (call : Call) :
    ∃ value, Asks (call.action dom) (call.requests dom) value := by
  match call with
  | parse text => exact ⟨_, (Asks.parse text).bind_pure _⟩
  | parseAnchor clause => exact ⟨_, (Asks.parseAnchor clause).bind_pure _⟩
  | plan list context => exact ⟨_, (Plan.asks_ofClauses dom context list).bind_pure _⟩
  | find (.node handle) _ => exact ⟨_, (Asks.pure (some handle)).bind_pure _⟩
  | find (.selector text) context => exact ⟨_, (asks_find dom text context).bind_pure _⟩
  | findAll (.node handle) _ => exact ⟨_, (Asks.pure [handle]).bind_pure _⟩
  | findAll (.selector text) context => exact ⟨_, (asks_findAll dom text context).bind_pure _⟩
  | query (.node handle) _ => exact ⟨_, (Asks.pure (some handle)).bind_pure _⟩
  | query (.selector text) context => exact ⟨_, (asks_query dom text context).bind_pure _⟩
  | queryAll (.node handle) _ => exact ⟨_, (Asks.pure [handle]).bind_pure _⟩
  | queryAll (.selector text) context => exact ⟨_, (asks_queryAll dom text context).bind_pure _⟩

/-- From every engine, a call makes its requests and has the answer of an engine that remembers
nothing. -/
theorem asks_action (dom : Dom) (call : Call) :
    Asks (call.action dom) (call.requests dom) (call.answer dom) := by
  obtain ⟨value, hvalue⟩ := call.exists_asks dom
  rwa [answer, hvalue.yields Engine.empty]

end Call

/-! ### Sessions -/

/-- One step of a session. -/
inductive Session.Step where
  /-- The document object model with the number changes, in whatever way. -/
  | change (number : Nat) (f : Dom → Dom)
  /-- The engine is called on the document object model with the number. -/
  | call (number : Nat) (call : Call)

/-- An engine, the document object models that it is called on, and what it has been asked for. -/
structure Session where
  engine : Engine := Engine.empty
  doms : Nat → Dom := fun _ => Dom.empty
  asked : List Request := []

namespace Session

/-- The session after a step. -/
def step (session : Session) : Step → Session
  | .change number f =>
      { session with doms := Function.update session.doms number (f (session.doms number)) }
  | .call number call =>
      { session with
        engine := ((call.action (session.doms number)).run session.engine).2
        asked := session.asked ++ call.requests (session.doms number) }

/-- The session after some steps. -/
def run (session : Session) (steps : List Step) : Session :=
  steps.foldl step session

/-- A step adds to what the engine was asked for, and the engine remembers what it adds. -/
theorem remembers_step {session : Session} (h : session.engine.Remembers session.asked)
    (next : Step) : (session.step next).engine.Remembers (session.step next).asked := by
  cases next with
  | change number f => exact h
  | call number call => exact (call.asks_action (session.doms number)).remembers h

theorem remembers_run {session : Session} (h : session.engine.Remembers session.asked)
    (steps : List Step) : (session.run steps).engine.Remembers (session.run steps).asked := by
  induction steps generalizing session with
  | nil => exact h
  | cons next steps ih => exact ih (remembers_step h next)

theorem asked_prefix_run (session : Session) (steps : List Step) :
    session.asked <+: (session.run steps).asked := by
  induction steps generalizing session with
  | nil => exact List.prefix_refl _
  | cons next steps ih =>
      have hnext : session.asked <+: (session.step next).asked := by
        cases next with
        | change number f => exact List.prefix_refl _
        | call number call => exact List.prefix_append _ _
      exact hnext.trans (ih (session.step next))

/-- The tables of the engine show in nothing but their size. -/
structure Transparent (session : Session) : Prop where
  /-- Every call is answered as by an engine that remembers nothing. -/
  answer_eq : ∀ number (call : Call),
    ((call.action (session.doms number)).run session.engine).1 =
      call.answer (session.doms number)
  /-- The session keeps account of all requests that a call makes. -/
  asks : ∀ number (call : Call), Engine.Asks (call.action (session.doms number))
    (call.requests (session.doms number)) (call.answer (session.doms number))
  /-- The table of clause lists holds the clauses of the texts that were asked for. -/
  selectors_eq_some_iff : ∀ (text : String) (list : ClauseList),
    session.engine.selectors.entries[text]? = some list ↔
      .selector text ∈ session.asked ∧ list = ClauseList.ofText text
  /-- The table of anchor clauses holds the parts of the clauses that were asked for. -/
  anchors_eq_some_iff : ∀ (clause : String) (parts : AnchorClause),
    session.engine.anchors.entries[clause]? = some parts ↔
      .anchor clause ∈ session.asked ∧ parts = AnchorClause.ofText clause
  /-- Entries stay as they are in whatever follows. -/
  selectors_kept : ∀ (steps : List Step) (text : String) (list : ClauseList),
    session.engine.selectors.entries[text]? = some list →
    (session.run steps).engine.selectors.entries[text]? = some list
  anchors_kept : ∀ (steps : List Step) (clause : String) (parts : AnchorClause),
    session.engine.anchors.entries[clause]? = some parts →
    (session.run steps).engine.anchors.entries[clause]? = some parts
  /-- There are as many entries as distinct texts that were asked for. -/
  selectors_size : session.engine.selectors.size =
    (session.asked.filterMap Request.text?).toFinset.card
  anchors_size : session.engine.anchors.size =
    (session.asked.filterMap Request.clause?).toFinset.card

theorem mem_text?_iff (requests : List Request) (text : String) :
    text ∈ requests.filterMap Request.text? ↔ .selector text ∈ requests := by
  rw [List.mem_filterMap]
  constructor
  · rintro ⟨request, hmem, htext⟩
    cases request with
    | selector other => rwa [← Option.some.inj htext]
    | anchor clause => exact absurd htext (by simp [Request.text?])
  · exact fun hmem => ⟨_, hmem, rfl⟩

theorem mem_clause?_iff (requests : List Request) (clause : String) :
    clause ∈ requests.filterMap Request.clause? ↔ .anchor clause ∈ requests := by
  rw [List.mem_filterMap]
  constructor
  · rintro ⟨request, hmem, hclause⟩
    cases request with
    | selector other => exact absurd hclause (by simp [Request.clause?])
    | anchor other => rwa [← Option.some.inj hclause]
  · exact fun hmem => ⟨_, hmem, rfl⟩

theorem transparent_of_remembers {session : Session}
    (h : session.engine.Remembers session.asked) : session.Transparent where
  answer_eq number call := (call.asks_action (session.doms number)).yields session.engine
  asks number call := call.asks_action (session.doms number)
  selectors_eq_some_iff text list := by
    rw [h.selectors.getElem?_eq_some_iff, mem_text?_iff]
  anchors_eq_some_iff clause parts := by
    rw [h.anchors.getElem?_eq_some_iff, mem_clause?_iff]
  selectors_kept steps text list := by
    rw [h.selectors.getElem?_eq_some_iff,
      (remembers_run h steps).selectors.getElem?_eq_some_iff, mem_text?_iff, mem_text?_iff]
    exact fun ⟨hmem, hlist⟩ => ⟨(asked_prefix_run session steps).subset hmem, hlist⟩
  anchors_kept steps clause parts := by
    rw [h.anchors.getElem?_eq_some_iff,
      (remembers_run h steps).anchors.getElem?_eq_some_iff, mem_clause?_iff, mem_clause?_iff]
    exact fun ⟨hmem, hparts⟩ => ⟨(asked_prefix_run session steps).subset hmem, hparts⟩
  selectors_size := h.selectors.size_eq
  anchors_size := h.anchors.size_eq

/-- **The tables of an engine are transparent throughout every session.** -/
theorem transparent_run (steps : List Step) : (({} : Session).run steps).Transparent :=
  transparent_of_remembers (remembers_run Engine.remembers_empty steps)

end Session

end DomQuery
