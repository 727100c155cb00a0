import DomQuery.Proofs.Selector.Grammar
import Mathlib.Data.List.TakeWhile

/-!
# The parser reads the grammar

Every reader of the parser takes tokens that derive what it returns (`list_sound` and the lemmas
around it), and reads every derivation to its end (`list_complete` and the lemmas around it), so
a token list is accepted if and only if it derives a list of selectors (`SelectorList.ofTokens_eq_ok_iff`).

A reader takes as much as it can.  A derivation is read back whole only if what stands behind it
cannot continue it: no simple selector behind a compound, and neither a combinator nor a
compound behind a complex selector.

The step count is spent once for each token and once more for each of the two readers that pass
the same tokens on, so three steps for a token are enough.
-/

namespace DomQuery

namespace Parser

open Grammar

theorem bind_eq_ok {ε α β : Type} {x : Except ε α} {f : α → Except ε β} {result : β} :
    (x >>= f) = .ok result ↔ ∃ value, x = .ok value ∧ f value = .ok result := by
  cases x <;> simp [bind, Except.bind]

/-! ### Whitespace -/

theorem skipSpace_append {space rest : List Token} (h : Space space) :
    skipSpace (space ++ rest) = skipSpace rest :=
  List.dropWhile_append_of_pos fun token hmem => by simp [h token hmem]

theorem exists_skipSpace (tokens : List Token) :
    ∃ space, Space space ∧ tokens = space ++ skipSpace tokens := by
  refine ⟨tokens.takeWhile (· == .whitespace), fun token hmem => ?_, ?_⟩
  · simpa using List.mem_takeWhile_imp hmem
  · rw [skipSpace, List.takeWhile_append_dropWhile]

theorem skipSpace_cons {token : Token} {rest : List Token} (h : token ≠ .whitespace) :
    skipSpace (token :: rest) = token :: rest :=
  List.dropWhile_cons_of_neg (by simpa using h)

theorem skipSpace_space_cons {space rest : List Token} {token : Token} (hspace : Space space)
    (h : token ≠ .whitespace) : skipSpace (space ++ token :: rest) = token :: rest := by
  rw [skipSpace_append hspace, skipSpace_cons h]

/-- The tokens are whitespace and then those that are left. -/
theorem exists_space_of_skipSpace {tokens rest : List Token} (h : skipSpace tokens = rest) :
    ∃ space, Space space ∧ tokens = space ++ rest :=
  h ▸ exists_skipSpace tokens

/-! ### Attribute selectors -/

theorem Value.ne_whitespace {token : Token} {value : String} (h : Value token value) :
    token ≠ .whitespace := by
  cases h <;> simp

theorem attributeValue_sound {name : String} {op : AttributeOp} {tokens rest : List Token}
    {simple : SimpleSelector} (h : attributeValue name op tokens = .ok (simple, rest)) :
    ∃ after token value last, Space after ∧ Value token value ∧ Space last ∧
      tokens = after ++ token :: (last ++ .rightBracket :: rest) ∧
      simple = .hasAttribute name (some (op, value)) := by
  have hclose : ∀ value more,
      attributeValue name op (.ident value :: more) = .ok (simple, rest) →
        ∃ last, Space last ∧ more = last ++ .rightBracket :: rest ∧
          simple = .hasAttribute name (some (op, value)) := by
    intro value more hmore
    rw [attributeValue, skipSpace_cons (by simp)] at hmore
    dsimp only at hmore
    split at hmore
    · next hskip =>
        cases hmore
        obtain ⟨last, hlast, rfl⟩ := exists_space_of_skipSpace hskip
        exact ⟨last, hlast, rfl, rfl⟩
    · exact absurd hmore (by simp [unexpected])
    · exact absurd hmore (by simp)
  unfold attributeValue at h
  dsimp only at h
  split at h
  · next value more hskip =>
      obtain ⟨after, hafter, rfl⟩ := exists_space_of_skipSpace hskip
      obtain ⟨last, hlast, rfl, hsimple⟩ := hclose value more h
      exact ⟨after, _, value, last, hafter, Value.ident value, hlast, rfl, hsimple⟩
  · next value more hskip =>
      obtain ⟨after, hafter, rfl⟩ := exists_space_of_skipSpace hskip
      obtain ⟨last, hlast, rfl, hsimple⟩ := hclose value more h
      exact ⟨after, _, value, last, hafter, Value.string value, hlast, rfl, hsimple⟩
  · exact absurd h (by simp [unexpected])
  · exact absurd h (by simp)

theorem attributeValue_complete {name value : String} {op : AttributeOp}
    {after last rest : List Token} {token : Token} (hafter : Space after)
    (hvalue : Value token value) (hlast : Space last) :
    attributeValue name op (after ++ token :: (last ++ .rightBracket :: rest)) =
      .ok (.hasAttribute name (some (op, value)), rest) := by
  have hskip : skipSpace (last ++ .rightBracket :: rest) = .rightBracket :: rest :=
    skipSpace_space_cons hlast (by simp)
  unfold attributeValue
  rw [skipSpace_space_cons hafter (Value.ne_whitespace hvalue)]
  cases hvalue <;> simp only [hskip]

theorem sign_ne_equals {op : AttributeOp} : op.sign? ≠ some '=' := by
  cases op <;> decide

theorem ofSign?_eq_some_iff {c : Char} {op : AttributeOp} :
    AttributeOp.ofSign? c = some op ↔ op.sign? = some c := by
  constructor
  · intro h
    simpa using List.find?_some h
  · intro h
    cases op <;> cases h <;> rfl

theorem attributeTest_sound {name : String} {tokens rest : List Token} {simple : SimpleSelector}
    (h : attributeTest name tokens = .ok (simple, rest)) :
    ∃ between taken, Space between ∧ tokens = between ++ (taken ++ rest) ∧
      ∀ before, Space before →
        Bracketed (before ++ .ident name :: (between ++ taken)) simple := by
  unfold attributeTest at h
  split at h
  · next more hskip =>
      cases h
      obtain ⟨between, hbetween, rfl⟩ := exists_space_of_skipSpace hskip
      exact ⟨between, [.rightBracket], hbetween, rfl, fun before hbefore =>
        Bracketed.bare hbefore hbetween⟩
  · next more hskip =>
      obtain ⟨between, hbetween, rfl⟩ := exists_space_of_skipSpace hskip
      obtain ⟨after, token, value, last, hafter, hvalue, hlast, rfl, rfl⟩ := attributeValue_sound h
      refine ⟨between, comparison .equals ++ (after ++ token :: (last ++ [.rightBracket])),
        hbetween, by simp [comparison, AttributeOp.sign?], fun before hbefore => ?_⟩
      exact Bracketed.test hbefore hbetween hafter hlast hvalue
  · next c more _ hskip =>
      obtain ⟨between, hbetween, rfl⟩ := exists_space_of_skipSpace hskip
      split at h
      · next op more hop =>
          obtain ⟨after, token, value, last, hafter, hvalue, hlast, rfl, rfl⟩ :=
            attributeValue_sound h
          have hsign := ofSign?_eq_some_iff.mp hop
          refine ⟨between, comparison op ++ (after ++ token :: (last ++ [.rightBracket])),
            hbetween, by simp [comparison, hsign], fun before hbefore => ?_⟩
          exact Bracketed.test hbefore hbetween hafter hlast hvalue
      · exact absurd h (by simp [unexpected])
  · exact absurd h (by simp [unexpected])
  · exact absurd h (by simp)

theorem bracketed_sound {tokens rest : List Token} {simple : SimpleSelector}
    (h : bracketed tokens = .ok (simple, rest)) :
    ∃ taken, tokens = taken ++ rest ∧ Bracketed taken simple := by
  unfold bracketed at h
  split at h
  · next name more hskip =>
      obtain ⟨before, hbefore, rfl⟩ := exists_space_of_skipSpace hskip
      obtain ⟨between, taken, -, rfl, hattribute⟩ := attributeTest_sound h
      exact ⟨_, by simp, hattribute before hbefore⟩
  · exact absurd h (by simp [unexpected])
  · exact absurd h (by simp)

theorem bracketed_complete {tokens : List Token} {simple : SimpleSelector}
    (h : Bracketed tokens simple) (rest : List Token) :
    bracketed (tokens ++ rest) = .ok (simple, rest) := by
  cases h with
  | @bare before after name hbefore hafter =>
      simp only [List.append_assoc, List.cons_append, List.nil_append]
      rw [bracketed, skipSpace_space_cons hbefore (by simp)]
      dsimp only
      rw [attributeTest, skipSpace_space_cons hafter (by simp)]
  | @test before between after last name value op token hbefore hbetween hafter hlast hvalue =>
      simp only [List.append_assoc, List.cons_append, List.nil_append]
      rw [bracketed, skipSpace_space_cons hbefore (by simp)]
      dsimp only
      rw [attributeTest, skipSpace_append hbetween]
      cases hsign : op.sign? with
      | none =>
          have hop : op = .equals := by
            cases op <;> first | rfl | exact absurd hsign (by decide)
          subst hop
          rw [comparison, hsign]
          dsimp only [List.cons_append, List.nil_append]
          rw [skipSpace_cons (by simp)]
          exact attributeValue_complete hafter hvalue hlast
      | some c =>
          have hc : c ≠ '=' := by
            rintro rfl
            exact sign_ne_equals hsign
          rw [comparison, hsign]
          dsimp only [List.cons_append, List.nil_append]
          rw [skipSpace_cons (by simp)]
          simp only [ofSign?_eq_some_iff.mpr hsign]
          exact attributeValue_complete hafter hvalue hlast

/-! ### Pseudo-classes and pseudo-elements -/

theorem plainPseudo_sound {tokens rest : List Token} {simple : SimpleSelector}
    (h : plainPseudo tokens = .ok (simple, rest)) :
    ∃ taken, tokens = taken ++ rest ∧ Plain taken simple := by
  unfold plainPseudo at h
  split at h
  · next name more =>
      split at h
      · next pseudo hpseudo =>
          cases h
          exact ⟨_, rfl, Plain.element hpseudo⟩
      · exact absurd h (by simp)
  · exact absurd h (by simp [unexpected])
  · exact absurd h (by simp)
  · next name more =>
      dsimp only at h
      split at h
      · next pseudo _ hpseudo =>
          cases h
          exact ⟨_, rfl, Plain.legacy hpseudo⟩
      · next pseudo hnone hpseudo =>
          cases h
          exact ⟨_, rfl, Plain.state hnone hpseudo⟩
      · exact absurd h (by simp)
  · exact absurd h (by simp [unexpected])
  · exact absurd h (by simp [unexpected])

theorem plainPseudo_complete {tokens : List Token} {simple : SimpleSelector}
    (h : Plain tokens simple) (rest : List Token) :
    plainPseudo (tokens ++ rest) = .ok (simple, rest) := by
  cases h with
  | element hpseudo => simp [plainPseudo, hpseudo]
  | legacy hpseudo => simp [plainPseudo, hpseudo]
  | state hnone hpseudo => simp [plainPseudo, hnone, hpseudo]

theorem nthText_sound {tokens rest : List Token} {text : String}
    (h : nthText tokens = .ok (text, rest)) :
    ∃ taken, tokens = taken ++ .rightParen :: rest ∧
      (∀ token ∈ taken, isNthPart token = true) ∧ text = argument taken := by
  induction tokens generalizing text with
  | nil => exact absurd h (by simp [nthText])
  | cons token tokens ih =>
      unfold nthText at h
      split at h
      · exact absurd ‹_ = []› (by simp)
      · next heq =>
          cases heq
          cases h
          exact ⟨[], rfl, by simp, rfl⟩
      · next heq =>
          cases heq
          split at h
          · next hpart =>
              cases hmore : nthText tokens with
              | error cause => exact absurd h (by simp [hmore, Except.map])
              | ok read =>
                  rw [hmore] at h
                  cases h
                  obtain ⟨taken, rfl, hparts, htext⟩ := ih hmore
                  refine ⟨token :: taken, rfl, ?_, by rw [htext, argument]⟩
                  simpa [hpart] using hparts
          · exact absurd h (by simp [unexpected])

theorem nthText_complete {tokens : List Token} (h : ∀ token ∈ tokens, isNthPart token = true)
    (rest : List Token) :
    nthText (tokens ++ .rightParen :: rest) = .ok (argument tokens, rest) := by
  induction tokens with
  | nil => rfl
  | cons token tokens ih =>
      have hpart : isNthPart token = true := h token (by simp)
      have hmore := ih fun other hmem => h other (by simp [hmem])
      rw [List.cons_append, nthText]
      · rw [if_pos hpart, hmore, argument]
        rfl
      · rintro rfl
        exact absurd hpart (by decide)

theorem nth_eq_ok_iff {make : AnPlusB → SimpleSelector} {tokens rest : List Token}
    {simple : SimpleSelector} :
    nth make tokens = .ok (simple, rest) ↔
      ∃ taken positions, tokens = taken ++ .rightParen :: rest ∧
        (∀ token ∈ taken, isNthPart token = true) ∧
        AnPlusB.ofText (argument taken) = .ok positions ∧ simple = make positions := by
  simp only [nth, bind_eq_ok]
  constructor
  · rintro ⟨⟨text, more⟩, htext, positions, hpositions, hmake⟩
    cases hmake
    obtain ⟨taken, rfl, hparts, rfl⟩ := nthText_sound htext
    exact ⟨taken, positions, rfl, hparts, hpositions, rfl⟩
  · rintro ⟨taken, positions, rfl, hparts, hpositions, rfl⟩
    exact ⟨_, nthText_complete hparts rest, positions, hpositions, rfl⟩

/-- No name belongs to a positional and to a logical pseudo-class. -/
theorem positional?_eq_none {name : String} {make : SelectorList → SimpleSelector}
    (h : logical? name = some make) : positional? name = none := by
  unfold positional?
  split
  · next heq =>
      subst heq
      exact absurd h (by simp [logical?])
  · split
    · next heq =>
        subst heq
        exact absurd h (by simp [logical?])
    · rfl

/-! ### Between compounds -/

theorem joint_sound {nested : Bool} {tokens rest : List Token} {combinator : Combinator}
    (h : joint nested tokens = .ok (some (combinator, rest))) :
    ∃ taken, tokens = taken ++ rest ∧ Joint taken combinator := by
  unfold joint at h
  split at h
  · exact absurd h (by simp)
  · next token more hskip =>
      obtain ⟨before, hbefore, htokens⟩ := exists_space_of_skipSpace hskip
      split at h
      · exact absurd h (by simp)
      · split at h
        · next found hfound =>
            cases h
            cases token with
            | delim c =>
                obtain ⟨after, hafter, heq⟩ := exists_skipSpace more
                refine ⟨before ++ .delim c :: after, ?_, Joint.sign hbefore hafter hfound⟩
                rw [htokens, List.append_assoc, List.cons_append, ← heq]
            | _ => exact absurd hfound (by simp [combinator?])
        · split at h
          · next hhead =>
              cases h
              refine ⟨before, htokens, Joint.descendant hbefore ?_⟩
              -- The first token is whitespace, and the one after the whitespace is not.
              rintro rfl
              rw [List.nil_append] at htokens
              rw [htokens, List.head?_cons, Option.some.injEq] at hhead
              subst hhead
              rw [htokens, skipSpace, List.dropWhile_cons_of_pos (by rfl)] at hskip
              have hlength := (List.dropWhile_suffix (l := more) (· == .whitespace)).length_le
              rw [hskip, List.length_cons] at hlength
              omega
          · exact absurd h (by simp [unexpected])

theorem combinator?_eq_none {token : Token} (h : opensCompound token = true) :
    combinator? token = none := by
  cases token with
  | delim c =>
      simp only [combinator?, Combinator.ofSign?, List.find?_eq_none]
      unfold opensCompound at h
      split at h
      · next heq => exact absurd heq (by simp)
      · next heq =>
          cases heq
          decide
      · simp only [opensSimple, beq_iff_eq] at h
        subst h
        decide
  | _ => rfl

theorem ne_of_opensCompound {token : Token} (h : opensCompound token = true) :
    token ≠ .whitespace ∧ token ≠ .comma ∧ token ≠ .rightParen := by
  refine ⟨?_, ?_, ?_⟩ <;> (rintro rfl; exact absurd h (by decide))

/-- What stands between two compounds is read to its end, since no compound begins with
whitespace. -/
theorem joint_complete {nested : Bool} {tokens rest : List Token} {combinator : Combinator}
    {token : Token} (h : Joint tokens combinator) (hopens : opensCompound token = true) :
    joint nested (tokens ++ token :: rest) = .ok (some (combinator, token :: rest)) := by
  obtain ⟨hspace, hcomma, hparen⟩ := ne_of_opensCompound hopens
  cases h with
  | descendant hblank hne =>
      obtain ⟨first, more, rfl⟩ := List.exists_cons_of_ne_nil hne
      have hfirst : first = .whitespace := hblank first (by simp)
      rw [joint, skipSpace_space_cons hblank hspace]
      simp [hcomma, hparen, combinator?_eq_none hopens, hfirst]
  | @sign before after c combinator hbefore hafter hsign =>
      rw [joint, List.append_assoc, List.cons_append, skipSpace_space_cons hbefore (by simp)]
      simp [combinator?, hsign, skipSpace_space_cons hafter hspace]

/-! ### What the readers return derives from what they take -/

mutual

theorem list_sound {nested : Bool} {steps : ℕ} {tokens rest : List Token}
    {selectors : SelectorList} (h : list nested steps tokens = .ok (selectors, rest)) :
    ∃ taken, tokens = taken ++ rest ∧ Alternatives taken selectors ∧
      (rest = [] ∨ nested = true ∧ rest.head? = some .rightParen) := by
  cases steps with
  | zero => exact absurd h (by simp [list])
  | succ steps =>
      simp only [list, bind_eq_ok] at h
      obtain ⟨⟨first, more⟩, hfirst, h⟩ := h
      obtain ⟨before, hbefore, htokens⟩ := exists_skipSpace tokens
      obtain ⟨taken, htaken, hcomplex, -⟩ := complex_sound hfirst
      rw [htaken] at htokens
      dsimp only at h
      split at h
      · next hskip =>
          cases h
          obtain ⟨after, hafter, rfl⟩ := exists_space_of_skipSpace hskip
          exact ⟨_, by simpa using htokens, Alternatives.single hbefore hcomplex hafter,
            Or.inl rfl⟩
      · next token others hskip =>
          obtain ⟨after, hafter, rfl⟩ := exists_space_of_skipSpace hskip
          split at h
          · next hcomma =>
              subst hcomma
              simp only [bind_eq_ok] at h
              obtain ⟨⟨selectors, last⟩, hothers, h⟩ := h
              cases h
              -- after a comma the rest is a list again, with one step less
              obtain ⟨tail, rfl, htail, hrest⟩ := list_sound hothers
              exact ⟨_, by simpa using htokens,
                Alternatives.cons hbefore hcomplex hafter htail, hrest⟩
          · split at h
            · next hparen =>
                obtain ⟨hnested, rfl⟩ := hparen
                cases h
                exact ⟨_, by simpa using htokens, Alternatives.single hbefore hcomplex hafter,
                  Or.inr ⟨hnested, rfl⟩⟩
            · exact absurd h (by simp [unexpected])
termination_by steps

theorem complex_sound {nested : Bool} {steps : ℕ} {tokens rest : List Token}
    {selector : ComplexSelector} (h : complex nested steps tokens = .ok (selector, rest)) :
    ∃ taken, tokens = taken ++ rest ∧ Complex taken selector ∧ joint nested rest = .ok none := by
  cases steps with
  | zero => exact absurd h (by simp [complex])
  | succ steps =>
      simp only [complex, bind_eq_ok] at h
      obtain ⟨⟨found, more⟩, hcompound, h⟩ := h
      obtain ⟨taken, rfl, hfound⟩ := compound_sound hcompound
      dsimp only at h
      split at h
      · exact absurd h (by simp)
      · next hne =>
          have hderives := Complex.compound (hfound (by simpa using hne))
          obtain ⟨tail, rfl, hselector, hjoint⟩ := chain_sound h hderives
          exact ⟨taken ++ tail, by simp, hselector, hjoint⟩
termination_by steps

theorem chain_sound {nested : Bool} {steps : ℕ} {left selector : ComplexSelector}
    {before tokens rest : List Token}
    (h : chain nested steps left tokens = .ok (selector, rest)) (hleft : Complex before left) :
    ∃ taken, tokens = taken ++ rest ∧ Complex (before ++ taken) selector ∧
      joint nested rest = .ok none := by
  cases steps with
  | zero => exact absurd h (by simp [chain])
  | succ steps =>
      simp only [chain, bind_eq_ok] at h
      obtain ⟨found, hjoint, h⟩ := h
      split at h
      · cases h
        exact ⟨[], rfl, by simpa using hleft, hjoint⟩
      · next combinator more =>
          simp only [bind_eq_ok] at h
          obtain ⟨⟨simples, others⟩, hcompound, h⟩ := h
          obtain ⟨sep, rfl, hsep⟩ := joint_sound hjoint
          obtain ⟨taken, rfl, hfound⟩ := compound_sound hcompound
          dsimp only at h
          split at h
          · exact absurd h (by simp)
          · next hne =>
              have hderives := Complex.combined hleft hsep (hfound (by simpa using hne))
              obtain ⟨tail, rfl, hselector, hrest⟩ := chain_sound h hderives
              exact ⟨sep ++ (taken ++ tail), by simp, by simpa using hselector, hrest⟩
termination_by steps

theorem compound_sound {steps : ℕ} {tokens rest : List Token} {found : List SimpleSelector}
    (h : compound steps tokens = .ok (found, rest)) :
    ∃ taken, tokens = taken ++ rest ∧ (found ≠ [] → Compound taken found) := by
  cases steps with
  | zero => exact absurd h (by simp [compound])
  | succ steps =>
      unfold compound at h
      split at h
      · exact absurd ‹_ = 0› (by simp)
      · next name more heq =>
          cases heq
          simp only [bind_eq_ok] at h
          obtain ⟨⟨others, last⟩, hothers, h⟩ := h
          cases h
          obtain ⟨taken, rfl, hsimples⟩ := simples_sound hothers
          exact ⟨.ident name :: taken, rfl, fun _ => Compound.tag hsimples⟩
      · next more heq =>
          cases heq
          simp only [bind_eq_ok] at h
          obtain ⟨⟨others, last⟩, hothers, h⟩ := h
          cases h
          obtain ⟨taken, rfl, hsimples⟩ := simples_sound hothers
          exact ⟨.delim '*' :: taken, rfl, fun _ => Compound.universal hsimples⟩
      · next heq _ _ =>
          cases heq
          obtain ⟨taken, rfl, hsimples⟩ := simples_sound h
          exact ⟨taken, rfl, Compound.simples hsimples⟩
termination_by steps

theorem simples_sound {steps : ℕ} {tokens rest : List Token} {found : List SimpleSelector}
    (h : simples steps tokens = .ok (found, rest)) :
    ∃ taken, tokens = taken ++ rest ∧ Simples taken found := by
  cases steps with
  | zero => exact absurd h (by simp [simples])
  | succ steps =>
      unfold simples at h
      split at h
      · exact absurd ‹_ = 0› (by simp)
      · exact absurd h (by simp)
      · next value more heq =>
          cases heq
          simp only [bind_eq_ok] at h
          obtain ⟨⟨others, last⟩, hothers, h⟩ := h
          cases h
          obtain ⟨taken, rfl, hsimples⟩ := simples_sound hothers
          exact ⟨_, rfl, Simples.cons (Simple.id value) hsimples⟩
      · next name more heq =>
          cases heq
          simp only [bind_eq_ok] at h
          obtain ⟨⟨others, last⟩, hothers, h⟩ := h
          cases h
          obtain ⟨taken, rfl, hsimples⟩ := simples_sound hothers
          exact ⟨_, rfl, Simples.cons (Simple.className name) hsimples⟩
      · exact absurd h (by simp [unexpected])
      · exact absurd h (by simp [unexpected])
      · next more heq =>
          cases heq
          simp only [bind_eq_ok] at h
          obtain ⟨⟨first, others⟩, hfirst, ⟨simples, last⟩, hothers, h⟩ := h
          cases h
          obtain ⟨taken, rfl, hattribute⟩ := bracketed_sound hfirst
          obtain ⟨tail, rfl, hsimples⟩ := simples_sound hothers
          exact ⟨_, by simp, Simples.cons (Simple.bracket hattribute) hsimples⟩
      · next more heq =>
          cases heq
          simp only [bind_eq_ok] at h
          obtain ⟨⟨first, others⟩, hfirst, ⟨simples, last⟩, hothers, h⟩ := h
          cases h
          obtain ⟨taken, rfl, hpseudo⟩ := pseudo_sound hfirst
          obtain ⟨tail, rfl, hsimples⟩ := simples_sound hothers
          exact ⟨_, by simp, Simples.cons hpseudo hsimples⟩
      · next heq _ _ _ _ _ _ _ =>
          cases heq
          cases h
          exact ⟨[], rfl, Simples.nil⟩
termination_by steps

theorem pseudo_sound {steps : ℕ} {tokens rest : List Token} {simple : SimpleSelector}
    (h : pseudo steps tokens = .ok (simple, rest)) :
    ∃ taken, tokens = taken ++ rest ∧ Simple (.colon :: taken) simple := by
  cases steps with
  | zero => exact absurd h (by simp [pseudo])
  | succ steps =>
      unfold pseudo at h
      split at h
      · exact absurd ‹_ = 0› (by simp)
      · next name more heq =>
          cases heq
          dsimp only at h
          split at h
          · next make _ hmake =>
              obtain ⟨taken, positions, rfl, hparts, hpositions, rfl⟩ := nth_eq_ok_iff.mp h
              exact ⟨_, by simp, Simple.nth hmake hparts hpositions rfl⟩
          · next make _ hmake =>
              simp only [bind_eq_ok] at h
              obtain ⟨⟨selectors, others⟩, hlist, h⟩ := h
              split at h
              · next last heq =>
                  cases h
                  dsimp only at heq
                  subst heq
                  obtain ⟨taken, rfl, hselectors, -⟩ := list_sound hlist
                  exact ⟨_, by simp, Simple.logical hmake hselectors rfl⟩
              · exact absurd h (by simp)
          · exact absurd h (by simp)
      · next heq _ =>
          cases heq
          obtain ⟨taken, rfl, hplain⟩ := plainPseudo_sound h
          exact ⟨taken, rfl, Simple.plain hplain⟩
termination_by steps

end

/-! ### Every derivation is read to its end -/

/-- Nothing that continues a compound stands in front. -/
def Stops (tokens : List Token) : Prop :=
  ∀ token ∈ tokens.head?, opensSimple token = false

theorem stops_of_joint {tokens : List Token} {combinator : Combinator}
    (h : Joint tokens combinator) (rest : List Token) : Stops (tokens ++ rest) := by
  have hspace : ∀ {space more : List Token}, Space space → Stops more → Stops (space ++ more) := by
    intro space more hspace hmore
    cases space with
    | nil => exact hmore
    | cons token space =>
        rw [hspace token (by simp)]
        simp [Stops, opensSimple]
  cases h with
  | descendant hblank hne =>
      obtain ⟨first, more, rfl⟩ := List.exists_cons_of_ne_nil hne
      rw [hblank first (by simp)]
      simp [Stops, opensSimple]
  | @sign before after c combinator hbefore _ hsign =>
      rw [List.append_assoc]
      refine hspace hbefore ?_
      have hdot : c ≠ '.' := by
        rintro rfl
        exact absurd hsign (by simp [Combinator.ofSign?, Combinator.sign])
      simp [Stops, opensSimple, hdot]

/-- A complex selector ends at the end of the tokens, at a comma, and at the parenthesis that
closes the list around it. -/
theorem joint_eq_none_iff {nested : Bool} {tokens : List Token} :
    joint nested tokens = .ok none ↔ ∀ token ∈ (skipSpace tokens).head?,
      token = .comma ∨ (nested = true ∧ token = .rightParen) := by
  unfold joint
  split
  · next hskip => simp [hskip]
  · next token rest hskip =>
      simp only [hskip, List.head?_cons, Option.mem_def, Option.some.injEq, forall_eq']
      constructor
      · intro h
        by_contra hend
        rw [if_neg hend] at h
        split at h
        · exact absurd h (by simp)
        · split at h <;> exact absurd h (by simp [unexpected])
      · intro hend
        rw [if_pos hend]

theorem stops_of_joint_none {nested : Bool} {tokens : List Token}
    (h : joint nested tokens = .ok none) : Stops tokens := by
  rw [joint_eq_none_iff] at h
  intro token hmem
  obtain ⟨rest, rfl⟩ := List.head?_eq_some_iff.mp hmem
  by_cases hspace : token = .whitespace
  · rw [hspace]
    rfl
  · rcases h token (by rw [skipSpace_cons hspace]; rfl) with rfl | ⟨-, rfl⟩ <;> rfl

theorem simples_stop {rest : List Token} (h : Stops rest) (steps : ℕ) :
    simples (steps + 1) rest = .ok ([], rest) := by
  unfold simples
  split
  · exact absurd ‹_ = 0› (by simp)
  all_goals first
    | rfl
    | exact absurd (h _ rfl) (by simp [opensSimple])

/-- A compound without a tag name is read as simple selectors. -/
theorem compound_eq_simples {tokens : List Token} (steps : ℕ) (hne : tokens ≠ [])
    (h : ∀ token ∈ tokens.head?, opensSimple token = true) :
    compound (steps + 1) tokens = simples steps tokens := by
  unfold compound
  split
  · exact absurd ‹_ = 0› (by simp)
  · exact absurd (h _ rfl) (by simp [opensSimple])
  · exact absurd (h _ rfl) (by simp [opensSimple])
  · next heq _ _ =>
      cases heq
      rfl

theorem pseudo_eq_plainPseudo {tokens : List Token} {simple : SimpleSelector}
    (h : Plain tokens simple) (rest : List Token) (steps : ℕ) :
    pseudo (steps + 1) (tokens ++ rest) = .ok (simple, rest) := by
  rw [← plainPseudo_complete h rest]
  cases h <;> simp [pseudo]

mutual

theorem list_complete {nested : Bool} {tokens rest : List Token} {selectors : SelectorList}
    {steps : ℕ} (h : Alternatives tokens selectors)
    (hrest : rest = [] ∨ nested = true ∧ rest.head? = some .rightParen)
    (hsteps : 3 * tokens.length + 4 ≤ steps) :
    list nested steps (tokens ++ rest) = .ok (selectors, rest) := by
  obtain ⟨steps, rfl⟩ := Nat.exists_eq_add_of_le' (show 1 ≤ steps by omega)
  cases h with
  | @single before tokens after selector hbefore hcomplex hafter =>
      simp only [List.length_append] at hsteps
      obtain ⟨token, more, rfl, hopens⟩ := hcomplex.exists_head
      -- the list ends in front of the end of the text or of a closing parenthesis
      have hend : skipSpace (after ++ rest) = rest := by
        rw [skipSpace_append hafter]
        rcases hrest with rfl | ⟨-, hhead⟩
        · rfl
        · obtain ⟨others, rfl⟩ := List.head?_eq_some_iff.mp hhead
          exact skipSpace_cons (by simp)
      -- there no combinator is found, so the complex selector ends
      have hjoint : joint nested (after ++ rest) = .ok none := by
        rw [joint_eq_none_iff, hend]
        rcases hrest with rfl | ⟨hnested, hhead⟩
        · simp
        · simp [hhead, hnested]
      have hfirst : complex nested steps (token :: more ++ (after ++ rest)) =
          .ok (selector, after ++ rest) := complex_complete hcomplex hjoint (by omega)
      have hstart : skipSpace (before ++ (token :: more ++ after) ++ rest) =
          token :: more ++ (after ++ rest) := by
        simp [skipSpace_space_cons hbefore (ne_of_opensCompound hopens).1]
      rw [list, hstart, hfirst]
      rcases hrest with rfl | ⟨hnested, hhead⟩
      · rw [List.append_nil] at hend
        simp [bind, Except.bind, pure, Except.pure, hend]
      · obtain ⟨others, rfl⟩ := List.head?_eq_some_iff.mp hhead
        simp [bind, Except.bind, pure, Except.pure, hend, hnested]
  | @cons before tokens after others selector selectors hbefore hcomplex hafter hothers =>
      simp only [List.length_append, List.length_cons] at hsteps
      obtain ⟨token, more, rfl, hopens⟩ := hcomplex.exists_head
      -- no combinator is found in front of a comma either
      have hend : skipSpace (after ++ .comma :: (others ++ rest)) = .comma :: (others ++ rest) :=
        skipSpace_space_cons hafter (by simp)
      have hjoint : joint nested (after ++ .comma :: (others ++ rest)) = .ok none := by
        simp [joint_eq_none_iff, hend]
      have hfirst : complex nested steps (token :: more ++ (after ++ .comma :: (others ++ rest))) =
          .ok (selector, after ++ .comma :: (others ++ rest)) :=
        complex_complete hcomplex hjoint (by omega)
      have htail : list nested steps (others ++ rest) = .ok (selectors, rest) :=
        list_complete hothers hrest (by omega)
      have hstart : skipSpace (before ++ (token :: more ++ (after ++ .comma :: others)) ++ rest) =
          token :: more ++ (after ++ .comma :: (others ++ rest)) := by
        simp [skipSpace_space_cons hbefore (ne_of_opensCompound hopens).1]
      rw [list, hstart, hfirst]
      simp [bind, Except.bind, pure, Except.pure, hend, htail]
termination_by (steps, tokens.length)

theorem complex_complete {nested : Bool} {tokens rest : List Token} {selector : ComplexSelector}
    {steps : ℕ} (h : Complex tokens selector) (hrest : joint nested rest = .ok none)
    (hsteps : 3 * tokens.length + 3 ≤ steps) :
    complex nested steps (tokens ++ rest) = .ok (selector, rest) := by
  obtain ⟨spent, hspent, hchain⟩ :=
    complex_eq_chain nested h (stops_of_joint_none hrest) hsteps
  obtain ⟨left, hleft⟩ := Nat.exists_eq_add_of_le' (show 1 ≤ steps - spent by omega)
  rw [hchain, hleft, chain, hrest]
  rfl
termination_by (steps, tokens.length + 1)

/-- Reading a complex selector gets to where its tokens end, with all that it has read so far
on the left. -/
theorem complex_eq_chain (nested : Bool) {tokens rest : List Token} {selector : ComplexSelector}
    {steps : ℕ} (h : Complex tokens selector) (hrest : Stops rest)
    (hsteps : 3 * tokens.length + 3 ≤ steps) :
    ∃ spent ≤ tokens.length,
      complex nested steps (tokens ++ rest) = chain nested (steps - spent) selector rest := by
  cases h with
  | @compound _ simples hcompound =>
      obtain ⟨steps, rfl⟩ := Nat.exists_eq_add_of_le' (show 1 ≤ steps by omega)
      have hread : compound steps (tokens ++ rest) = .ok (simples, rest) :=
        compound_complete hcompound hrest (by omega)
      have hne := hcompound.ne_nil
      obtain ⟨token, more, rfl, -⟩ := hcompound.exists_head
      refine ⟨1, by simp, ?_⟩
      rw [complex, hread]
      simp [bind, Except.bind, hne]
  | @combined before sep others left combinator simples hleft hsep hcompound =>
      simp only [List.length_append] at hsteps
      have hlength := hsep.length_pos
      obtain ⟨spent, hspent, hchain⟩ :=
        complex_eq_chain nested hleft (stops_of_joint hsep (others ++ rest))
          (show 3 * before.length + 3 ≤ steps by omega)
      obtain ⟨steps', hsteps'⟩ := Nat.exists_eq_add_of_le' (show 1 ≤ steps - spent by omega)
      have hread : compound steps' (others ++ rest) = .ok (simples, rest) :=
        compound_complete hcompound hrest (by omega)
      have hne := hcompound.ne_nil
      obtain ⟨token, more, rfl, hopens⟩ := hcompound.exists_head
      refine ⟨spent + 1, by simp only [List.length_append]; omega, ?_⟩
      have hleftover : steps - (spent + 1) = steps' := by omega
      rw [List.append_assoc, List.append_assoc, hchain, hsteps', hleftover, chain,
        List.cons_append, joint_complete hsep hopens, ← List.cons_append]
      simp only [bind, Except.bind, hread, List.isEmpty_iff, hne, if_false]
termination_by (steps, tokens.length)
decreasing_by
  · exact Prod.Lex.left _ _ (by omega)
  · subst_vars
    refine Prod.Lex.right _ ?_
    simp only [List.length_append]
    omega
  · exact Prod.Lex.left _ _ (by omega)

theorem compound_complete {tokens rest : List Token} {found : List SimpleSelector} {steps : ℕ}
    (h : Compound tokens found) (hrest : Stops rest) (hsteps : 3 * tokens.length + 2 ≤ steps) :
    compound steps (tokens ++ rest) = .ok (found, rest) := by
  obtain ⟨steps, rfl⟩ := Nat.exists_eq_add_of_le' (show 1 ≤ steps by omega)
  cases h with
  | tag hsimples =>
      simp only [List.length_cons] at hsteps
      have htail := simples_complete hsimples hrest (show _ ≤ steps by omega)
      simp [compound, htail, bind, Except.bind, pure, Except.pure]
  | universal hsimples =>
      simp only [List.length_cons] at hsteps
      have htail := simples_complete hsimples hrest (show _ ≤ steps by omega)
      simp [compound, htail, bind, Except.bind, pure, Except.pure]
  | simples hsimples hne =>
      obtain ⟨token, more, rfl⟩ := List.exists_cons_of_ne_nil (hsimples.ne_nil hne)
      rw [compound_eq_simples steps (by simp) (by simpa using hsimples.head_opens)]
      exact simples_complete hsimples hrest (by omega)
termination_by (steps, tokens.length)

theorem simples_complete {tokens rest : List Token} {found : List SimpleSelector} {steps : ℕ}
    (h : Simples tokens found) (hrest : Stops rest) (hsteps : 3 * tokens.length + 1 ≤ steps) :
    simples steps (tokens ++ rest) = .ok (found, rest) := by
  obtain ⟨steps, rfl⟩ := Nat.exists_eq_add_of_le' (show 1 ≤ steps by omega)
  cases h with
  | nil => exact simples_stop hrest steps
  | @cons first others simple found hsimple hothers =>
      simp only [List.length_append] at hsteps
      -- the first simple selector pays for the step
      have hpos : 1 ≤ first.length := by
        obtain ⟨token, more, rfl, -⟩ := hsimple.exists_head
        simp
      have htail := simples_complete hothers hrest (show _ ≤ steps by omega)
      cases hsimple with
      | id value => simp [simples, htail, bind, Except.bind, pure, Except.pure]
      | className name => simp [simples, htail, bind, Except.bind, pure, Except.pure]
      | bracket hattribute =>
          have hfirst := bracketed_complete hattribute (others ++ rest)
          simp [simples, hfirst, htail, bind, Except.bind, pure, Except.pure]
      | plain hplain =>
          have hfirst := pseudo_eq_plainPseudo hplain (others ++ rest) (steps - 1)
          rw [Nat.sub_add_cancel (by omega)] at hfirst
          simp [simples, hfirst, htail, bind, Except.bind, pure, Except.pure]
      | @nth name make tokens positions _ hmake hparts hpositions hsimple =>
          subst hsimple
          obtain ⟨steps, rfl⟩ := Nat.exists_eq_add_of_le' (show 1 ≤ steps by omega)
          have hfirst : pseudo (steps + 1)
              (.function name :: (tokens ++ .rightParen :: (others ++ rest))) =
                .ok (make positions, others ++ rest) := by
            simp only [pseudo, hmake]
            exact nth_eq_ok_iff.mpr ⟨tokens, positions, rfl, hparts, hpositions, rfl⟩
          simp [simples, hfirst, htail, bind, Except.bind, pure, Except.pure]
      | @logical name make tokens selectors _ hmake hselectors hsimple =>
          subst hsimple
          simp only [List.length_cons, List.length_append] at hsteps
          obtain ⟨steps, rfl⟩ := Nat.exists_eq_add_of_le' (show 1 ≤ steps by omega)
          have hlist : list true steps (tokens ++ .rightParen :: (others ++ rest)) =
              .ok (selectors, .rightParen :: (others ++ rest)) :=
            list_complete hselectors (Or.inr ⟨rfl, rfl⟩) (by omega)
          have hfirst : pseudo (steps + 1)
              (.function name :: (tokens ++ .rightParen :: (others ++ rest))) =
                .ok (make selectors, others ++ rest) := by
            simp [pseudo, hmake, positional?_eq_none hmake, hlist, bind, Except.bind, pure,
              Except.pure]
          simp [simples, hfirst, htail, bind, Except.bind, pure, Except.pure]
termination_by (steps, tokens.length)

end

end Parser

/-- Tokens make up selectors if and only if they derive them. -/
theorem SelectorList.ofTokens_eq_ok_iff {tokens : List Token} {selectors : SelectorList} :
    SelectorList.ofTokens tokens = .ok selectors ↔ Grammar.Alternatives tokens selectors := by
  simp only [SelectorList.ofTokens, Parser.bind_eq_ok]
  constructor
  · rintro ⟨⟨found, rest⟩, hlist, hrest⟩
    split at hrest
    · next heq =>
        cases hrest
        obtain ⟨taken, rfl, hderives, -⟩ := Parser.list_sound hlist
        dsimp only at heq
        rw [heq, List.append_nil]
        exact hderives
    · exact absurd hrest (by simp [Parser.unexpected])
  · intro hderives
    refine ⟨(selectors, []), ?_, rfl⟩
    have hread : Parser.list false (3 * tokens.length + 4) (tokens ++ []) = .ok (selectors, []) :=
      Parser.list_complete hderives (Or.inl rfl) (Nat.le_refl _)
    rwa [List.append_nil] at hread

end DomQuery
