import DomQuery.Proofs.Relative.Path
import DomQuery.Relative.Plan

/-!
# Writing clauses out

A clause among several is written out as one text: the path of its anchor, a space, and what the
steps left of the clause, without the blanks around it all.  The text is read as the path with the
rest of the clause behind it (`Dom.exists_writtenOut`).

What trimming takes away is inside the path only where nothing is left of the clause, so only then
the end of the path has to be kept (`Identifier.KeepsEnd`).
-/

namespace DomQuery

/-- What a clause leaves after its steps: nothing, or a selector, with or without a combinator in
front. -/
inductive Plan.Continuation : String → Option (Combinator × ComplexSelector) → Prop where
  | nothing : Continuation "" none
  | below {text : String} {lower : ComplexSelector} : SelectorList.ofText text = .ok [lower] →
      Continuation text (some (.descendant, lower))
  | sign {c : Char} {combinator : Combinator} {text : String} {lower : ComplexSelector} :
      Combinator.ofSign? c = some combinator → SelectorList.ofText text = .ok [lower] →
        Continuation (String.ofList (c :: text.toList)) (some (combinator, lower))

/-- The selector with the rest of a clause behind it. -/
def ComplexSelector.continued (upper : ComplexSelector) :
    Option (Combinator × ComplexSelector) → ComplexSelector
  | none => upper
  | some (combinator, lower) => upper.joined combinator lower

namespace Dom

open Plan

variable {dom : Dom} {anchor : Handle} {rest : String}

/-- The text does not end in a blank. -/
def EndsPlain (text : String) : Prop :=
  ∀ c ∈ text.toList.getLast?, Text.isBlank c = false

theorem trim_path_append {c d : Char} {more behind : List Char}
    (hc : Text.isBlank c = false) (hd : ∀ e ∈ (d :: behind).getLast?, Text.isBlank e = false) :
    Text.trim (c :: more ++ ' ' :: d :: behind) = c :: more ++ ' ' :: d :: behind := by
  rw [Text.trim, List.cons_append, Text.trimStart_cons hc]
  refine Text.trimEnd_eq_self fun e he => hd e ?_
  simpa [List.getLast?_append, List.getLast?_cons] using he

/-- **A clause with an anchor is written out**, and its text is read as the path of the anchor with
the rest of the clause behind it. -/
theorem exists_writtenOut (hsteps : dom.pathSteps (anchor :: dom.ancestors anchor) ≠ [])
    (hcalled : ∀ node ∈ dom.calledNodes (anchor :: dom.ancestors anchor), dom.Legible node)
    (hblank : ∀ node ∈ dom.calledNodes (anchor :: dom.ancestors anchor), dom.BlankFree node)
    {continuation : Option (Combinator × ComplexSelector)}
    (hrest : Continuation rest continuation) (hplain : EndsPlain rest)
    (hend : rest = "" → ∀ id, dom.pathId? anchor = some id → Identifier.KeepsEnd id) :
    ∃ text, writtenOut dom ⟨some anchor, rest⟩ = some text ∧ SelectorList.ofText text =
      .ok [(dom.readPath (anchor :: dom.ancestors anchor)).continued continuation] := by
  obtain ⟨c, more, hpath, hc⟩ := exists_head_pathChars hsteps hcalled hblank
  have hspelled := spelled_readPath hsteps hcalled
  rw [← toList_path] at hpath hspelled
  have hne : dom.path anchor ≠ "" := by
    intro hempty
    rw [hempty] at hpath
    exact absurd hpath (by simp)
  have hwritten : writtenOut dom ⟨some anchor, rest⟩ =
      some (String.ofList (Text.trim ((dom.path anchor).toList ++ ' ' :: rest.toList))) := by
    simp [writtenOut, hne]
  refine ⟨_, hwritten, ?_⟩
  cases hrest with
  | nothing =>
      -- of the path alone only the blanks at the end are cut off
      have htrim : Text.trim ((dom.path anchor).toList ++ ' ' :: "".toList) =
          Text.trimEnd (dom.path anchor).toList := by
        rw [hpath, Text.trim, List.cons_append, Text.trimStart_cons hc, ← List.cons_append]
        exact Text.trimEnd_concat_of_blank (by decide) _
      rw [htrim, toList_path]
      refine ofText_trimEnd_pathChars hsteps hcalled hblank fun node hnode => ?_
      obtain rfl : anchor = node := Option.some.inj hnode
      exact hend rfl
  | below hread =>
      obtain ⟨d, behind, heq⟩ := List.exists_cons_of_ne_nil
        (mt String.toList_eq_nil_iff.mp (SelectorList.ne_empty_of_ofText hread))
      rw [EndsPlain, heq] at hplain
      rw [hpath, heq, trim_path_append hc hplain, ← hpath, ← heq]
      exact hspelled.ofText_space hread
  | sign hsign hread =>
      rw [EndsPlain, String.toList_ofList] at hplain
      rw [hpath, String.toList_ofList, trim_path_append hc hplain, ← hpath]
      exact hspelled.ofText_sign hsign hread

end Dom

end DomQuery
