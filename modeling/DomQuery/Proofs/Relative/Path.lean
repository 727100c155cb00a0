import DomQuery.Proofs.Selector.Texts
import DomQuery.Relative.Path

/-!
# What a path writes

The text of a path is a selector as long as the tag names in it need no escape
(`Dom.spelled_readPath`): each step writes a compound, and the child combinator stands between them.
Which selector it is can be told from the nodes without the text (`Dom.readPath`).  Any node can be
on the way, and any text can be an `id`.

Trimming takes nothing from a path but the space that ends an escape at its end, and the path is
read alike without it (`Dom.ofText_trimEnd_pathChars`).  An `id` that ends in a blank is different,
unless the blank is a control character: its escape ends in the blank itself, so it is trimmed too.
-/

namespace DomQuery

open Lexer Identifier

/-! ### Names that are written as they are -/

theorem Identifier.null_not_mem_numberEscape {c : Char} (hlow : c.toNat < 128) :
    '\x00' ∉ numberEscape c := by
  intro hmem
  simp only [numberEscape, List.cons_append, List.mem_cons, List.mem_append] at hmem
  rcases hmem with hslash | hdigit | hspace
  · exact absurd hslash (by decide)
  · have hhex := (toDigits_spec ⟨c.toNat, hlow⟩).1 _ hdigit
    exact absurd hhex (by decide)
  · exact absurd hspace (by decide)

theorem Identifier.null_not_mem_escapeChar (c : Char) : '\x00' ∉ escapeChar c := by
  rcases escapeChar_cases c with ⟨-, hc⟩ | ⟨-, hlow, hc⟩ | ⟨hne, -, hc⟩ | ⟨hne, -, -, hc⟩
  · rw [hc]
    decide
  · rw [hc]
    exact null_not_mem_numberEscape hlow
  · rw [hc]
    simpa using hne.symm
  · rw [hc]
    simpa using hne.symm

theorem Identifier.null_not_mem_escapeLeading (c : Char) : '\x00' ∉ escapeLeading c := by
  unfold escapeLeading
  split
  · next hdigit => exact null_not_mem_numberEscape (ne_null_of_isDigit hdigit).2
  · exact null_not_mem_escapeChar c

/-- No escaped name holds U+0000. -/
theorem Identifier.null_not_mem_escapeChars (chars : List Char) : '\x00' ∉ escapeChars chars := by
  have hall : ∀ (c : Char) (rest : List Char),
      '\x00' ∉ escapeLeading c ++ rest.flatMap escapeChar := by
    intro c rest hmem
    rcases List.mem_append.mp hmem with hfirst | hrest
    · exact null_not_mem_escapeLeading c hfirst
    · obtain ⟨d, -, hd⟩ := List.mem_flatMap.mp hrest
      exact null_not_mem_escapeChar d hd
  unfold escapeChars
  split
  · simp
  · decide
  · next c rest => exact List.not_mem_cons_of_ne_of_not_mem (by decide) (hall c rest)
  · next c rest _ _ => exact hall c rest

theorem Identifier.isKeyword_of_escape {name : String} (hne : name ≠ "") (h : escape name = name) :
    IsKeyword name := by
  have hchars : escapeChars name.toList = name.toList := by
    rw [escape, ← String.toList_inj, String.toList_ofList] at h
    exact h
  have hnull := null_not_mem_escapeChars name.toList
  rw [hchars] at hnull
  exact ⟨by simp [isWritable, hne, hnull], hchars⟩

namespace Dom

variable {dom : Dom} {node parent : Handle} {rest : List Handle}

/-! ### Paths as selectors -/

/-- The `id` that begins the path of the node, if it has one. -/
def pathId? (dom : Dom) (node : Handle) : Option String :=
  (dom.attributeValue? node "id").filter fun id => !id.isEmpty

/-- The compound that a step writes. -/
def stepSimples (dom : Dom) (node parent : Handle) : List SimpleSelector :=
  let tagName := (dom.tagName? node).getD "*"
  if dom.isDocument parent then [.tag tagName]
  else [.tag tagName, .nthChild (.single ((dom.elementPosition? node).getD 1))]

/-- The selector that a path writes, given the node with its ancestors. -/
def pathSelector (dom : Dom) : List Handle → ComplexSelector
  | [] => .compound []
  | [_] => .compound [.pseudoClass .scope]
  | node :: parent :: rest =>
      match dom.pathId? node with
      | some id => .compound [.id id]
      | none =>
          if dom.pathSteps (parent :: rest) = [] then .compound (dom.stepSimples node parent)
          else .combined (dom.pathSelector (parent :: rest)) .child (dom.stepSimples node parent)

/-- What a step says of the name of the node.  A node that is no element has no tag name. -/
def typeSelector (dom : Dom) (node : Handle) : SimpleSelector :=
  match dom.tagName? node with
  | some name => .tag name
  | none => .universal

/-- The compound that a step is read as, whatever the node is. -/
def readStep (dom : Dom) (node parent : Handle) : List SimpleSelector :=
  if dom.isDocument parent then [dom.typeSelector node]
  else [dom.typeSelector node, .nthChild (.single ((dom.elementPosition? node).getD 1))]

/-- The selector that a path is read as, given the node with its ancestors. -/
def readPath (dom : Dom) : List Handle → ComplexSelector
  | [] => .compound []
  | [_] => .compound [.pseudoClass .scope]
  | node :: parent :: rest =>
      match dom.pathId? node with
      | some id => .compound [.id (readBackText id)]
      | none =>
          if dom.pathSteps (parent :: rest) = [] then .compound (dom.readStep node parent)
          else .combined (dom.readPath (parent :: rest)) .child (dom.readStep node parent)

/-- The nodes that a path calls by their names, given the node with its ancestors: those before the
first one with an `id`, the topmost node apart. -/
def calledNodes (dom : Dom) : List Handle → List Handle
  | [] => []
  | [_] => []
  | node :: parent :: rest =>
      if (dom.pathId? node).isSome then [] else node :: dom.calledNodes (parent :: rest)

/-- The text of a path, given the node with its ancestors. -/
def pathChars (dom : Dom) (nodes : List Handle) : List Char :=
  (" > ".intercalate (dom.pathSteps nodes).reverse).toList

theorem toList_path (dom : Dom) (node : Handle) :
    (dom.path node).toList = dom.pathChars (node :: dom.ancestors node) := rfl

theorem pathSteps_cons (node parent : Handle) (rest : List Handle) :
    dom.pathSteps (node :: parent :: rest) =
      match dom.pathId? node with
      | some id => ["#" ++ Identifier.escape id]
      | none => dom.pathStep node parent :: dom.pathSteps (parent :: rest) := rfl

theorem pathSteps_ne_nil (node parent : Handle) (rest : List Handle) :
    dom.pathSteps (node :: parent :: rest) ≠ [] := by
  rw [pathSteps_cons]
  split <;> simp

theorem pathChars_singleton {top : Handle} (h : dom.pathSteps [top] ≠ []) :
    dom.pathChars [top] = ":scope".toList := by
  have hdocument : ¬ dom.isDocument top = true := fun htrue => h (by rw [pathSteps, if_pos htrue])
  rw [pathChars, pathSteps, if_neg hdocument, List.reverse_singleton, String.intercalate_singleton]

theorem pathChars_of_id {id : String} (h : dom.pathId? node = some id) :
    dom.pathChars (node :: parent :: rest) = '#' :: (Identifier.escape id).toList := by
  simp [pathChars, pathSteps_cons, h]

theorem pathChars_of_first (h : dom.pathId? node = none)
    (hrest : dom.pathSteps (parent :: rest) = []) :
    dom.pathChars (node :: parent :: rest) = (dom.pathStep node parent).toList := by
  simp [pathChars, pathSteps_cons, h, hrest]

theorem pathChars_of_next (h : dom.pathId? node = none)
    (hrest : dom.pathSteps (parent :: rest) ≠ []) :
    dom.pathChars (node :: parent :: rest) = dom.pathChars (parent :: rest) ++
      ' ' :: '>' :: ' ' :: (dom.pathStep node parent).toList := by
  rw [pathChars, pathSteps_cons, h, List.reverse_cons,
    String.intercalate_append_of_ne_nil (by simpa using hrest) (by simp),
    String.intercalate_singleton]
  simp [pathChars]

theorem calledNodes_of_none (h : dom.pathId? node = none) :
    dom.calledNodes (node :: parent :: rest) = node :: dom.calledNodes (parent :: rest) := by
  simp [calledNodes, h]

theorem ne_empty_of_pathId? {id : String} (h : dom.pathId? node = some id) : id ≠ "" := by
  rintro rfl
  obtain ⟨-, hempty⟩ := Option.filter_eq_some_iff.mp h
  exact absurd hempty (by simp)

/-! ### Reading paths -/

/-- The node can be called in a path: its tag name needs no escape, and its position can be read. -/
structure Legible (dom : Dom) (node : Handle) : Prop where
  isKeyword : ∀ name, dom.tagName? node = some name → IsKeyword name ∧ Text.lowercase name = name
  position_lt : (dom.elementPosition? node).getD 1 < 2147483648

/-- The names of an element can be written in a path, and its position can be read. -/
structure PlainlyNamed (dom : Dom) (node : Handle) : Prop where
  exists_tag : ∃ name, dom.tagName? node = some name ∧ IsKeyword name ∧
    Text.lowercase name = name
  null_not_mem_id : ∀ id, dom.pathId? node = some id → '\x00' ∉ id.toList
  position_lt : (dom.elementPosition? node).getD 1 < 2147483648

/-- The tag name of the node, if it has one, holds no blank. -/
def BlankFree (dom : Dom) (node : Handle) : Prop :=
  ∀ name, dom.tagName? node = some name → ∀ c ∈ name.toList, Text.isBlank c = false

theorem PlainlyNamed.legible (h : dom.PlainlyNamed node) : dom.Legible node where
  isKeyword := by
    intro name hname
    obtain ⟨other, hother, hkeyword⟩ := h.exists_tag
    rw [hname, Option.some.injEq] at hother
    rwa [hother]
  position_lt := h.position_lt

/-- For an element whose names can be written, the path is read as it was written. -/
theorem PlainlyNamed.readPath_eq (h : dom.PlainlyNamed node)
    (hrest : dom.pathSteps (parent :: rest) ≠ [] →
      dom.readPath (parent :: rest) = dom.pathSelector (parent :: rest)) :
    dom.readPath (node :: parent :: rest) = dom.pathSelector (node :: parent :: rest) := by
  obtain ⟨name, hname, -⟩ := h.exists_tag
  have hstep : dom.readStep node parent = dom.stepSimples node parent := by
    simp [readStep, stepSimples, typeSelector, hname]
  rw [readPath, pathSelector, hstep]
  cases hid : dom.pathId? node with
  | some id => simp only [readBackText, ofList_map_readBack (h.null_not_mem_id id hid)]
  | none =>
      dsimp only
      split
      · rfl
      · next hne => rw [hrest hne]

theorem toList_pathStep_of_isDocument (hdocument : dom.isDocument parent = true) :
    (dom.pathStep node parent).toList = ((dom.tagName? node).getD "*").toList := by
  simp [pathStep, hdocument]

theorem toList_pathStep (hdocument : dom.isDocument parent = false) :
    (dom.pathStep node parent).toList = ((dom.tagName? node).getD "*").toList ++
      writtenFunction "nth-child" (Nat.toDigits 10 ((dom.elementPosition? node).getD 1)) := by
  simp [pathStep, hdocument, writtenFunction]

namespace Legible

theorem spelledType (h : dom.Legible node) :
    SpelledType (dom.typeSelector node) ((dom.tagName? node).getD "*").toList := by
  rw [typeSelector]
  cases hname : dom.tagName? node with
  | none => exact spelledType_universal
  | some name =>
      obtain ⟨hkeyword, hlower⟩ := h.isKeyword name hname
      exact spelledType_tag hkeyword hlower

/-- A step is read as its compound. -/
theorem spelled_step (h : dom.Legible node) (parent : Handle) :
    SpelledCompound (dom.readStep node parent) (dom.pathStep node parent).toList := by
  rw [readStep]
  cases hdocument : dom.isDocument parent with
  | true =>
      rw [toList_pathStep_of_isDocument hdocument]
      exact h.spelledType.compound
  | false =>
      rw [toList_pathStep hdocument]
      exact h.spelledType.nthChild h.position_lt

/-- A step begins with the tag name, if there is one. -/
theorem exists_head_step (h : dom.Legible node) (parent : Handle) :
    ∃ c more, (dom.pathStep node parent).toList = c :: more ∧ isSpace c = false ∧
      c ∈ ((dom.tagName? node).getD "*").toList := by
  obtain ⟨c, front, heq, hspace⟩ :
      ∃ c front, ((dom.tagName? node).getD "*").toList = c :: front ∧ isSpace c = false := by
    cases hname : dom.tagName? node with
    | none => exact ⟨'*', [], rfl, by decide⟩
    | some name =>
        obtain ⟨hkeyword, -⟩ := h.isKeyword name hname
        have hstarts := startsName_escapeChars (toList_ne_nil hkeyword.1) []
        rw [hkeyword.2, List.append_nil] at hstarts
        obtain ⟨c, front, heq, hspace, -, -⟩ := exists_head_of_startsName hstarts
        exact ⟨c, front, heq, hspace⟩
  cases hdocument : dom.isDocument parent with
  | true => exact ⟨c, _, by rw [toList_pathStep_of_isDocument hdocument, heq], hspace, by simp [heq]⟩
  | false =>
      exact ⟨c, _, by rw [toList_pathStep hdocument, heq, List.cons_append], hspace, by simp [heq]⟩

end Legible

/-- **A path is read as its selector**, if the nodes that it calls can be called. -/
theorem spelled_readPath {nodes : List Handle} (hsteps : dom.pathSteps nodes ≠ [])
    (hcalled : ∀ node ∈ dom.calledNodes nodes, dom.Legible node) :
    (dom.readPath nodes).Spelled (dom.pathChars nodes) := by
  induction nodes with
  | nil => exact absurd rfl hsteps
  | cons node rest ih =>
      cases rest with
      | nil =>
          rw [pathChars_singleton hsteps]
          exact ComplexSelector.Spelled.compound spelledCompound_scope
      | cons parent rest =>
          rw [readPath]
          cases hid : dom.pathId? node with
          | some id =>
              rw [pathChars_of_id hid]
              exact ComplexSelector.Spelled.compound (spelledCompound_id (ne_empty_of_pathId? hid))
          | none =>
              rw [calledNodes_of_none hid] at hcalled
              obtain ⟨hnode, hrest⟩ := List.forall_mem_cons.mp hcalled
              have hstep := hnode.spelled_step parent
              by_cases hempty : dom.pathSteps (parent :: rest) = []
              · simp only [if_pos hempty]
                rw [pathChars_of_first hid hempty]
                exact ComplexSelector.Spelled.compound hstep
              · obtain ⟨c, more, heq, hspace, -⟩ := hnode.exists_head_step parent
                simp only [if_neg hempty]
                rw [heq] at hstep
                rw [pathChars_of_next hid hempty, heq]
                exact (ih hempty hrest).child hstep hspace

/-- The selector has a part for each step, and the step alone is read as this part. -/
theorem forall₂_readPath {nodes : List Handle} (hsteps : dom.pathSteps nodes ≠ [])
    (hcalled : ∀ node ∈ dom.calledNodes nodes, dom.Legible node) :
    List.Forall₂ (fun step part => SelectorList.ofText step = .ok [.compound part.1])
      (dom.pathSteps nodes) (dom.readPath nodes).parts := by
  have hcompound : ∀ {simples : List SimpleSelector} {step : String},
      SpelledCompound simples step.toList → SelectorList.ofText step = .ok [.compound simples] := by
    intro simples step hspelled
    have hread := (ComplexSelector.Spelled.compound hspelled).ofText
    rwa [String.ofList_toList] at hread
  induction nodes with
  | nil => exact absurd rfl hsteps
  | cons node rest ih =>
      cases rest with
      | nil =>
          have hdocument : ¬ dom.isDocument node = true :=
            fun htrue => hsteps (by rw [pathSteps, if_pos htrue])
          rw [pathSteps, if_neg hdocument]
          exact .cons (hcompound spelledCompound_scope) .nil
      | cons parent rest =>
          rw [pathSteps_cons, readPath]
          cases hid : dom.pathId? node with
          | some id =>
              have hspelled := spelledCompound_id (ne_empty_of_pathId? hid)
              exact .cons (hcompound (by rwa [String.toList_append])) .nil
          | none =>
              rw [calledNodes_of_none hid] at hcalled
              obtain ⟨hnode, hrest⟩ := List.forall_mem_cons.mp hcalled
              have hstep := hcompound (hnode.spelled_step parent)
              dsimp only
              split
              · next hempty =>
                  rw [hempty]
                  exact .cons hstep .nil
              · next hne => exact .cons hstep (ih hne hrest)

/-! ### Trimming paths -/

theorem BlankFree.of_mem_tagName (h : dom.BlankFree node) {c : Char}
    (hc : c ∈ ((dom.tagName? node).getD "*").toList) : Text.isBlank c = false := by
  cases hname : dom.tagName? node with
  | none =>
      rw [hname] at hc
      obtain rfl : c = '*' := by simpa using hc
      decide
  | some name =>
      rw [hname] at hc
      exact h name hname c hc

theorem exists_head_pathChars {nodes : List Handle} (hsteps : dom.pathSteps nodes ≠ [])
    (hcalled : ∀ node ∈ dom.calledNodes nodes, dom.Legible node)
    (hblank : ∀ node ∈ dom.calledNodes nodes, dom.BlankFree node) :
    ∃ c more, dom.pathChars nodes = c :: more ∧ Text.isBlank c = false := by
  induction nodes with
  | nil => exact absurd rfl hsteps
  | cons node rest ih =>
      cases rest with
      | nil => exact ⟨':', _, pathChars_singleton hsteps, by decide⟩
      | cons parent rest =>
          cases hid : dom.pathId? node with
          | some id =>
              rw [pathChars_of_id hid]
              exact ⟨'#', _, rfl, by decide⟩
          | none =>
              rw [calledNodes_of_none hid] at hcalled hblank
              obtain ⟨hnode, hrest⟩ := List.forall_mem_cons.mp hcalled
              obtain ⟨hfree, hblank⟩ := List.forall_mem_cons.mp hblank
              by_cases hempty : dom.pathSteps (parent :: rest) = []
              · obtain ⟨c, more, heq, -, hc⟩ := hnode.exists_head_step parent
                rw [pathChars_of_first hid hempty]
                exact ⟨c, more, heq, hfree.of_mem_tagName hc⟩
              · obtain ⟨c, more, heq, hc⟩ := ih hempty hrest hblank
                rw [pathChars_of_next hid hempty, heq]
                exact ⟨c, _, rfl, hc⟩

/-- The `id` at the end of a trimmed path is read as it was. -/
theorem reads_trimEnd_id {id : String} (hne : id ≠ "") (hend : KeepsEnd id) :
    Reads (Text.trimEnd ('#' :: (Identifier.escape id).toList)) [.hash (readBackText id) true] [] := by
  have hne : id.toList ≠ [] := mt String.toList_eq_nil_iff.mp hne
  have hname := name_trimEnd_escapeChars hend
  generalize htrimmed : Text.trimEnd (escapeChars id.toList) = trimmed at hname
  have htrimmed_ne : trimmed ≠ [] := by
    rintro rfl
    rw [name] at hname
    exact hne (List.map_eq_nil_iff.mp (Prod.mk.inj hname).1.symm)
  have hdash : trimmed ≠ ['-'] := by
    rintro rfl
    have hsingle : id.toList.map readBack = ['-'] := by
      have hread : name ['-'] = (['-'], []) := by
        rw [name_char (by decide)]
        simp [name]
      exact (Prod.mk.inj (hname.symm.trans hread)).1
    obtain ⟨c, hc, hback⟩ := List.map_eq_singleton_iff.mp hsingle
    have hplain : c = '-' := by
      rw [readBack] at hback
      split at hback
      · exact absurd hback (by decide)
      · exact hback
    rw [hc, hplain] at htrimmed
    exact absurd htrimmed (by decide)
  have hopen : ¬ LeavesEscape trimmed := by
    have hslash : name ['\\'] = ([], ['\\']) := by
      rw [name, if_neg (by decide), if_neg (by decide)]
    rintro (rfl | rfl)
    · exact absurd (hslash.symm.trans hname) (by simp)
    · rw [name_char (by decide), hslash] at hname
      exact absurd hname (by simp)
  have hstarts : startsName trimmed = true := by
    obtain ⟨behind, hbehind⟩ := List.rdropWhile_prefix Text.isBlank (escapeChars id.toList)
    rw [← Text.trimEnd_eq_rdropWhile, htrimmed] at hbehind
    have hall := startsName_escapeChars hne []
    rw [List.append_nil, ← hbehind] at hall
    exact startsName_of_append hall htrimmed_ne hdash hopen
  have hhash : Text.trimEnd ('#' :: (Identifier.escape id).toList) = '#' :: trimmed := by
    rw [Identifier.escape, String.toList_ofList, ← List.singleton_append,
      Text.trimEnd_append (by rwa [htrimmed]), htrimmed, List.singleton_append]
  have hread := reads_hash_of_startsName hstarts
  rwa [hname, ← hhash] at hread

/-- The end of a step is not blank. -/
theorem BlankFree.of_mem_getLast?_step (h : dom.BlankFree node) {c : Char}
    (hc : c ∈ (dom.pathStep node parent).toList.getLast?) : Text.isBlank c = false := by
  cases hdocument : dom.isDocument parent with
  | true =>
      rw [toList_pathStep_of_isDocument hdocument] at hc
      exact h.of_mem_tagName (List.mem_of_getLast? hc)
  | false =>
      have hparen : (dom.pathStep node parent).toList.getLast? = some ')' := by
        rw [toList_pathStep hdocument, writtenFunction]
        simp [List.getLast?_append, List.getLast?_cons]
      rw [hparen] at hc
      cases hc
      decide

/-- A path that ends in a step is not changed by trimming its end. -/
theorem BlankFree.trimEnd_pathChars (h : dom.BlankFree node) (hnode : dom.Legible node)
    (hid : dom.pathId? node = none) :
    Text.trimEnd (dom.pathChars (node :: parent :: rest)) =
      dom.pathChars (node :: parent :: rest) := by
  refine Text.trimEnd_eq_self fun c hc => ?_
  obtain ⟨d, more, heq, -, -⟩ := hnode.exists_head_step parent
  have hstep : c ∈ (dom.pathStep node parent).toList.getLast? → Text.isBlank c = false :=
    h.of_mem_getLast?_step
  by_cases hempty : dom.pathSteps (parent :: rest) = []
  · rw [pathChars_of_first hid hempty] at hc
    exact hstep hc
  · rw [pathChars_of_next hid hempty, heq] at hc
    rw [heq] at hstep
    refine hstep ?_
    simpa [List.getLast?_append, List.getLast?_cons] using hc

/-- **A path is read alike without the blanks at its end**, unless they belong to an `id`. -/
theorem ofText_trimEnd_pathChars {nodes : List Handle} (hsteps : dom.pathSteps nodes ≠ [])
    (hcalled : ∀ node ∈ dom.calledNodes nodes, dom.Legible node)
    (hblank : ∀ node ∈ dom.calledNodes nodes, dom.BlankFree node)
    (hend : ∀ node ∈ nodes.head?, ∀ id, dom.pathId? node = some id → KeepsEnd id) :
    SelectorList.ofText (String.ofList (Text.trimEnd (dom.pathChars nodes))) =
      .ok [dom.readPath nodes] := by
  have hread := (spelled_readPath hsteps hcalled).ofText
  obtain _ | ⟨node, _ | ⟨parent, rest⟩⟩ := nodes
  · exact absurd rfl hsteps
  · have htrim : Text.trimEnd ":scope".toList = ":scope".toList := by decide
    rw [pathChars_singleton hsteps] at hread ⊢
    rwa [htrim]
  · cases hid : dom.pathId? node with
    | some id =>
        have hreads := reads_trimEnd_id (ne_empty_of_pathId? hid) (hend node rfl id hid)
        have hsimples : Grammar.Simples ([.hash (readBackText id) true] ++ [])
            [.id (readBackText id)] :=
          Grammar.Simples.cons (Grammar.Simple.id _) Grammar.Simples.nil
        have hderives := Grammar.Alternatives.single Grammar.Space.nil
          (Grammar.Complex.compound (Grammar.Compound.simples hsimples (by simp)))
          Grammar.Space.nil
        rw [pathChars_of_id hid, readPath, hid]
        refine SelectorList.ofText_eq_ok_iff.mpr ⟨_, ?_, hderives⟩
        rw [String.toList_ofList, hreads.tokens_eq]
        rfl
    | none =>
        rw [calledNodes_of_none hid] at hcalled hblank
        rwa [(hblank node List.mem_cons_self).trimEnd_pathChars (hcalled node List.mem_cons_self)
          hid]

end Dom

end DomQuery
