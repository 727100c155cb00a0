import DomQuery.Selector.Parser
import Mathlib.Data.List.ModifyLast

/-!
# The grammar of selectors

What the tokens of a selector are, without regard to how they are read.  Each relation below
says that a list of tokens, taken as a whole, *derives* a piece of a selector; the lists are put
together by concatenation only, so a derivation does not depend on what stands around it.

Whitespace counts between two compounds, where it is the descendant combinator.  In brackets,
around commas and around any other combinator it may stand or not.

A complex selector can go on to the left of another one (`ComplexSelector.joined`).  For tokens it is
enough to stand behind one another, with the sign of a combinator or with some whitespace between
them (`Alternatives.join_sign`, `Alternatives.join_space`): the whitespace at the seam is no part of
either selector.
-/

namespace DomQuery.Grammar

/-- Any number of whitespace tokens. -/
def Space (tokens : List Token) : Prop :=
  ∀ token ∈ tokens, token = .whitespace

/-! ### Simple selectors without selectors inside -/

/-- The tokens of a comparison. -/
def comparison (op : AttributeOp) : List Token :=
  match op.sign? with
  | none => [.delim '=']
  | some c => [.delim c, .delim '=']

/-- A value to compare with, as a name or as a string. -/
inductive Value : Token → String → Prop where
  | ident (value : String) : Value (.ident value) value
  | string (value : String) : Value (.string value) value

/-- What stands between the brackets of an attribute selector, with the closing bracket. -/
inductive Bracketed : List Token → SimpleSelector → Prop where
  | bare {before after : List Token} {name : String} : Space before → Space after →
      Bracketed (before ++ .ident name :: (after ++ [.rightBracket])) (.hasAttribute name none)
  | test {before between after last : List Token} {name value : String} {op : AttributeOp}
      {token : Token} : Space before → Space between → Space after → Space last →
      Value token value →
      Bracketed (before ++ .ident name ::
          (between ++ (comparison op ++ (after ++ token :: (last ++ [.rightBracket])))))
        (.hasAttribute name (some (op, value)))

/-- A pseudo-class without argument or a pseudo-element, after its first colon. -/
inductive Plain : List Token → SimpleSelector → Prop where
  | element {name : String} {pseudo : PseudoElement} :
      PseudoElement.ofName? name = some pseudo →
      Plain [.colon, .ident name] (.pseudoElement pseudo)
  | legacy {name : String} {pseudo : PseudoElement} :
      PseudoElement.ofName? (Text.lowercase name) = some pseudo →
      Plain [.ident name] (.pseudoElement pseudo)
  | state {name : String} {pseudo : PseudoClass} :
      PseudoElement.ofName? (Text.lowercase name) = none →
      PseudoClass.ofName? (Text.lowercase name) = some pseudo →
      Plain [.ident name] (.pseudoClass pseudo)

/-- The text that the tokens in the argument of a positional pseudo-class make up. -/
def argument : List Token → String
  | [] => ""
  | token :: rest => token.text ++ argument rest

/-- What stands between two compounds. -/
inductive Joint : List Token → Combinator → Prop where
  | descendant {space : List Token} : Space space → space ≠ [] → Joint space .descendant
  | sign {before after : List Token} {c : Char} {combinator : Combinator} : Space before →
      Space after → Combinator.ofSign? c = some combinator →
      Joint (before ++ .delim c :: after) combinator

/-! ### Selectors -/

mutual

/-- A simple selector other than a tag name and the universal selector. -/
inductive Simple : List Token → SimpleSelector → Prop where
  | id (value : String) : Simple [.hash value true] (.id value)
  | className (name : String) : Simple [.delim '.', .ident name] (.className name)
  | bracket {tokens : List Token} {simple : SimpleSelector} : Bracketed tokens simple →
      Simple (.leftBracket :: tokens) simple
  | plain {tokens : List Token} {simple : SimpleSelector} : Plain tokens simple →
      Simple (.colon :: tokens) simple
  | nth {name : String} {make : AnPlusB → SimpleSelector} {tokens : List Token}
      {positions : AnPlusB} {simple : SimpleSelector} :
      Parser.positional? (Text.lowercase name) = some make →
      (∀ token ∈ tokens, Parser.isNthPart token = true) →
      AnPlusB.ofText (argument tokens) = .ok positions → make positions = simple →
      Simple (.colon :: .function name :: (tokens ++ [.rightParen])) simple
  | logical {name : String} {make : SelectorList → SimpleSelector} {tokens : List Token}
      {selectors : SelectorList} {simple : SimpleSelector} :
      Parser.logical? (Text.lowercase name) = some make →
      Alternatives tokens selectors → make selectors = simple →
      Simple (.colon :: .function name :: (tokens ++ [.rightParen])) simple

/-- Any number of such simple selectors. -/
inductive Simples : List Token → List SimpleSelector → Prop where
  | nil : Simples [] []
  | cons {tokens rest : List Token} {simple : SimpleSelector} {simples : List SimpleSelector} :
      Simple tokens simple → Simples rest simples → Simples (tokens ++ rest) (simple :: simples)

/-- A compound: simple selectors with or without a tag name or universal selector in front. -/
inductive Compound : List Token → List SimpleSelector → Prop where
  | tag {name : String} {tokens : List Token} {simples : List SimpleSelector} :
      Simples tokens simples →
      Compound (.ident name :: tokens) (.tag (Text.lowercase name) :: simples)
  | universal {tokens : List Token} {simples : List SimpleSelector} : Simples tokens simples →
      Compound (.delim '*' :: tokens) (.universal :: simples)
  | simples {tokens : List Token} {simples : List SimpleSelector} : Simples tokens simples →
      simples ≠ [] → Compound tokens simples

/-- A complex selector. -/
inductive Complex : List Token → ComplexSelector → Prop where
  | compound {tokens : List Token} {simples : List SimpleSelector} : Compound tokens simples →
      Complex tokens (.compound simples)
  | combined {tokens joint rest : List Token} {left : ComplexSelector} {combinator : Combinator}
      {simples : List SimpleSelector} : Complex tokens left → Joint joint combinator →
      Compound rest simples →
      Complex (tokens ++ (joint ++ rest)) (.combined left combinator simples)

/-- One or more complex selectors with commas between them. -/
inductive Alternatives : List Token → SelectorList → Prop where
  | single {before tokens after : List Token} {selector : ComplexSelector} : Space before →
      Complex tokens selector → Space after →
      Alternatives (before ++ (tokens ++ after)) [selector]
  | cons {before tokens after rest : List Token} {selector : ComplexSelector}
      {selectors : SelectorList} : Space before → Complex tokens selector → Space after →
      Alternatives rest selectors →
      Alternatives (before ++ (tokens ++ (after ++ .comma :: rest))) (selector :: selectors)

end

/-! ### Alternatives behind one another -/

theorem Alternatives.append {first second : List Token} {left right : SelectorList}
    (hleft : Alternatives first left) (hright : Alternatives second right) :
    Alternatives (first ++ .comma :: second) (left ++ right) :=
  match hleft with
  | .single hbefore hcomplex hafter => by
      have hall := Alternatives.cons hbefore hcomplex hafter hright
      simpa using hall
  | .cons hbefore hcomplex hafter hrest => by
      have hall := Alternatives.cons hbefore hcomplex hafter (hrest.append hright)
      simpa using hall

/-! ### How derivations begin -/

/-- Whether the token begins a simple selector. -/
def opensSimple : Token → Bool
  | .hash _ _ => true
  | .delim c => c == '.'
  | .leftBracket | .colon => true
  | .ident _ | .function _ | .string _ | .number _ | .dimension _ _ | .whitespace | .comma
  | .rightBracket | .leftParen | .rightParen => false

/-- Whether the token begins a compound. -/
def opensCompound (token : Token) : Bool :=
  match token with
  | .ident _ => true
  | .delim '*' => true
  | token => opensSimple token

theorem Space.nil : Space [] := by
  simp [Space]

theorem Space.single : Space [.whitespace] := by
  simp [Space]

theorem Joint.length_pos {tokens : List Token} {combinator : Combinator}
    (h : Joint tokens combinator) : 1 ≤ tokens.length := by
  cases h with
  | descendant _ hne => exact List.length_pos_iff.mpr hne
  | sign _ _ _ =>
      rw [List.length_append, List.length_cons]
      omega

theorem Simple.exists_head {tokens : List Token} {simple : SimpleSelector}
    (h : Simple tokens simple) : ∃ token rest, tokens = token :: rest ∧ opensSimple token = true := by
  cases h <;> exact ⟨_, _, rfl, rfl⟩

theorem Simples.head_opens {tokens : List Token} {simples : List SimpleSelector}
    (h : Simples tokens simples) : ∀ token ∈ tokens.head?, opensSimple token = true := by
  cases h with
  | nil => simp
  | cons hsimple _ =>
      obtain ⟨token, rest, rfl, hopens⟩ := hsimple.exists_head
      simpa using hopens

theorem Simples.ne_nil {tokens : List Token} {simples : List SimpleSelector}
    (h : Simples tokens simples) (hne : simples ≠ []) : tokens ≠ [] := by
  cases h with
  | nil => exact absurd rfl hne
  | cons hsimple _ =>
      obtain ⟨token, rest, rfl, -⟩ := hsimple.exists_head
      simp

theorem opensCompound_of_opensSimple {token : Token} (h : opensSimple token = true) :
    opensCompound token = true := by
  unfold opensCompound
  split <;> first | rfl | exact h

theorem Compound.exists_head {tokens : List Token} {simples : List SimpleSelector}
    (h : Compound tokens simples) :
    ∃ token rest, tokens = token :: rest ∧ opensCompound token = true := by
  cases h with
  | tag _ => exact ⟨_, _, rfl, rfl⟩
  | universal _ => exact ⟨_, _, rfl, rfl⟩
  | simples hsimples hne =>
      obtain ⟨token, rest, rfl⟩ := List.exists_cons_of_ne_nil (hsimples.ne_nil hne)
      exact ⟨token, rest, rfl, opensCompound_of_opensSimple (hsimples.head_opens token rfl)⟩

theorem Compound.ne_nil {tokens : List Token} {simples : List SimpleSelector}
    (h : Compound tokens simples) : simples ≠ [] := by
  cases h with
  | tag _ => simp
  | universal _ => simp
  | simples _ hne => exact hne

theorem Complex.exists_head {tokens : List Token} {selector : ComplexSelector}
    (h : Complex tokens selector) :
    ∃ token rest, tokens = token :: rest ∧ opensCompound token = true :=
  match h with
  | .compound hcompound => hcompound.exists_head
  | .combined hleft _ _ => by
      obtain ⟨token, rest, rfl, hopens⟩ := hleft.exists_head
      exact ⟨token, _, rfl, hopens⟩

/-- Selectors begin with whitespace or with a token that begins a compound. -/
theorem Alternatives.exists_head {tokens : List Token} {selectors : SelectorList}
    (h : Alternatives tokens selectors) :
    ∃ token rest, tokens = token :: rest ∧
      (token = .whitespace ∨ opensCompound token = true) := by
  have hhead : ∀ {before inner : List Token} {selector : ComplexSelector} (more : List Token),
      Space before → Complex inner selector → ∃ token rest,
        before ++ (inner ++ more) = token :: rest ∧
          (token = .whitespace ∨ opensCompound token = true) := by
    intro before inner selector more hbefore hinner
    cases before with
    | nil =>
        obtain ⟨token, rest, rfl, hopens⟩ := hinner.exists_head
        exact ⟨token, _, rfl, Or.inr hopens⟩
    | cons token before => exact ⟨token, _, rfl, Or.inl (hbefore token (by simp))⟩
  cases h with
  | single hbefore hcomplex _ => exact hhead _ hbefore hcomplex
  | cons hbefore hcomplex _ _ => exact hhead _ hbefore hcomplex

/-! ### How derivations end -/

/-- The last token is not whitespace. -/
def EndsSolid (tokens : List Token) : Prop :=
  ∃ token, tokens.getLast? = some token ∧ token ≠ .whitespace

theorem EndsSolid.append {second : List Token} (h : EndsSolid second) (first : List Token) :
    EndsSolid (first ++ second) := by
  obtain ⟨token, hlast, hne⟩ := h
  exact ⟨token, by rw [List.getLast?_append, hlast, Option.some_or], hne⟩

theorem EndsSolid.concat {token : Token} (htoken : token ≠ .whitespace) (tokens : List Token) :
    EndsSolid (tokens ++ [token]) :=
  EndsSolid.append ⟨token, rfl, htoken⟩ tokens

theorem Bracketed.endsSolid {tokens : List Token} {simple : SimpleSelector}
    (h : Bracketed tokens simple) : EndsSolid tokens := by
  have hbracket : ∀ tokens : List Token, EndsSolid (tokens ++ [.rightBracket]) :=
    EndsSolid.concat (by simp)
  cases h with
  | @bare before after name _ _ => simpa using hbracket (before ++ .ident name :: after)
  | @test before between after last name _ op token _ _ _ _ _ =>
      simpa using hbracket
        (before ++ .ident name :: (between ++ (comparison op ++ (after ++ token :: last))))

theorem Simple.endsSolid {tokens : List Token} {simple : SimpleSelector}
    (h : Simple tokens simple) : EndsSolid tokens := by
  have hfunction : ∀ name tokens,
      EndsSolid (.colon :: .function name :: (tokens ++ [.rightParen])) :=
    fun name tokens => EndsSolid.concat (by simp) (.colon :: .function name :: tokens)
  cases h with
  | id _ => exact ⟨_, rfl, by simp⟩
  | className _ => exact ⟨_, rfl, by simp⟩
  | bracket hbracketed => exact hbracketed.endsSolid.append [.leftBracket]
  | plain hplain => cases hplain <;> exact ⟨_, rfl, by simp⟩
  | nth _ _ _ _ => exact hfunction _ _
  | logical _ _ _ => exact hfunction _ _

theorem Simples.endsSolid {tokens : List Token} {simples : List SimpleSelector}
    (h : Simples tokens simples) : tokens = [] ∨ EndsSolid tokens :=
  match h with
  | .nil => Or.inl rfl
  | .cons hsimple hrest => by
      right
      rcases hrest.endsSolid with rfl | hends
      · simpa using hsimple.endsSolid
      · exact hends.append _

theorem Compound.endsSolid {tokens : List Token} {simples : List SimpleSelector}
    (h : Compound tokens simples) : EndsSolid tokens := by
  have hfirst : ∀ {first : Token} {tokens : List Token}, first ≠ .whitespace →
      tokens = [] ∨ EndsSolid tokens → EndsSolid (first :: tokens) := by
    rintro first tokens hne (rfl | hends)
    · exact ⟨first, rfl, hne⟩
    · exact hends.append [first]
  cases h with
  | tag hsimples => exact hfirst (by simp) hsimples.endsSolid
  | universal hsimples => exact hfirst (by simp) hsimples.endsSolid
  | simples hsimples hne => exact hsimples.endsSolid.resolve_left (hsimples.ne_nil hne)

theorem Complex.endsSolid {tokens : List Token} {selector : ComplexSelector}
    (h : Complex tokens selector) : EndsSolid tokens :=
  match h with
  | .compound hcompound => hcompound.endsSolid
  | .combined _ _ hcompound => (hcompound.endsSolid.append _).append _

/-- A selector with whitespace in front is a selector without it. -/
theorem Alternatives.of_whitespace_cons {tokens : List Token} {selector : ComplexSelector}
    (h : Alternatives (.whitespace :: tokens) [selector]) : Alternatives tokens [selector] := by
  generalize hall : Token.whitespace :: tokens = all at h
  cases h with
  | @single before inner after _ hbefore hcomplex hafter =>
      cases before with
      | nil =>
          obtain ⟨token, rest, rfl, hopens⟩ := hcomplex.exists_head
          cases hall
          exact absurd hopens (by decide)
      | cons token before =>
          cases hall
          exact .single (fun other hother => hbefore other (by simp [hother])) hcomplex hafter
  | cons _ _ _ hrest => cases hrest

/-- A selector with whitespace behind it is a selector without it. -/
theorem Alternatives.of_concat_whitespace {tokens : List Token} {selector : ComplexSelector}
    (h : Alternatives (tokens ++ [.whitespace]) [selector]) : Alternatives tokens [selector] := by
  generalize hall : tokens ++ [Token.whitespace] = all at h
  cases h with
  | @single before inner after _ hbefore hcomplex hafter =>
      rcases List.eq_nil_or_concat after with rfl | ⟨others, token, rfl⟩
      · obtain ⟨token, hlast, hne⟩ := hcomplex.endsSolid.append before
        rw [List.append_nil] at hall
        rw [← hall, List.getLast?_concat] at hlast
        exact absurd (Option.some.inj hlast).symm hne
      · have hinit : tokens ++ [Token.whitespace] = (before ++ (inner ++ others)) ++ [token] := by
          simpa using hall
        obtain ⟨rfl, -⟩ := List.append_inj' hinit rfl
        exact .single hbefore hcomplex fun other hother => hafter other (by simp [hother])
  | cons _ _ _ hrest => cases hrest

end DomQuery.Grammar

/-! ### Selectors behind one another -/

namespace DomQuery

namespace ComplexSelector

/-- The selector with another one on its left. -/
def joined (left : ComplexSelector) (combinator : Combinator) : ComplexSelector → ComplexSelector
  | .compound simples => .combined left combinator simples
  | .combined middle inner simples => .combined (left.joined combinator middle) inner simples

theorem parts_ne_nil (selector : ComplexSelector) : selector.parts ≠ [] := by
  cases selector <;> simp [parts]

/-- The parts of both selectors follow each other, and the combinator is on the left of the compound
that had nothing on its left before. -/
theorem parts_joined (left : ComplexSelector) (combinator : Combinator) :
    ∀ right : ComplexSelector, (left.joined combinator right).parts =
      right.parts.modifyLast (fun part => (part.1, some combinator)) ++ left.parts
  | .compound simples => rfl
  | .combined middle inner simples => by
      have hlast := List.modifyLast_append_of_right_ne_nil
        (fun part : List SimpleSelector × Option Combinator => (part.1, some combinator))
        [(simples, some inner)] middle.parts middle.parts_ne_nil
      rw [List.singleton_append] at hlast
      rw [joined, parts, parts, parts_joined left combinator middle, hlast]
      rfl

end ComplexSelector

namespace Grammar

theorem Complex.join {first joint second : List Token} {upper lower : ComplexSelector}
    {combinator : Combinator} (hupper : Complex first upper) (hjoint : Joint joint combinator)
    (hlower : Complex second lower) :
    Complex (first ++ (joint ++ second)) (upper.joined combinator lower) :=
  match hlower with
  | .compound hcompound => .combined hupper hjoint hcompound
  | .combined hmiddle hinner hcompound => by
      have hall := Complex.combined (hupper.join hjoint hmiddle) hinner hcompound
      rw [List.append_assoc, List.append_assoc] at hall
      exact hall

namespace Alternatives

variable {tokens first second : List Token} {selector upper lower : ComplexSelector}
  {selectors : SelectorList} {combinator : Combinator}

/-- A single selector has only whitespace around it. -/
theorem exists_of_single (h : Alternatives tokens [selector]) :
    ∃ before inner after, tokens = before ++ (inner ++ after) ∧ Space before ∧
      Complex inner selector ∧ Space after := by
  cases h with
  | single hbefore hcomplex hafter => exact ⟨_, _, _, rfl, hbefore, hcomplex, hafter⟩
  | cons _ _ _ hrest => cases hrest

theorem whitespace_cons (h : Alternatives tokens selectors) :
    Alternatives (.whitespace :: tokens) selectors := by
  have hspace : ∀ {before : List Token}, Space before → Space (.whitespace :: before) :=
    fun hbefore => List.forall_mem_cons.mpr ⟨rfl, hbefore⟩
  cases h with
  | single hbefore hcomplex hafter => exact .single (hspace hbefore) hcomplex hafter
  | cons hbefore hcomplex hafter hrest => exact .cons (hspace hbefore) hcomplex hafter hrest

theorem concat_whitespace {tokens : List Token} {selectors : SelectorList}
    (h : Alternatives tokens selectors) : Alternatives (tokens ++ [.whitespace]) selectors :=
  match h with
  | .single hbefore hcomplex hafter => by
      have hspace := List.forall_mem_append.mpr ⟨hafter, Space.single⟩
      simpa using Alternatives.single hbefore hcomplex hspace
  | .cons hbefore hcomplex hafter hrest => by
      simpa using Alternatives.cons hbefore hcomplex hafter hrest.concat_whitespace

/-- Behind the sign of a combinator a selector goes on. -/
theorem join_sign {c : Char} (hupper : Alternatives first [upper])
    (hsign : Combinator.ofSign? c = some combinator) (hlower : Alternatives second [lower]) :
    Alternatives (first ++ .delim c :: second) [upper.joined combinator lower] := by
  obtain ⟨before, left, afterLeft, rfl, hbefore, hleft, hafterLeft⟩ := hupper.exists_of_single
  obtain ⟨beforeRight, right, after, rfl, hbeforeRight, hright, hafter⟩ := hlower.exists_of_single
  have hjoint := Joint.sign hafterLeft hbeforeRight hsign
  simpa using Alternatives.single hbefore (hleft.join hjoint hright) hafter

/-- Behind whitespace a selector goes on, wherever at the seam the whitespace is. -/
theorem join_space (hupper : Alternatives first [upper]) (hlower : Alternatives second [lower])
    (hspace : first.getLast? = some .whitespace ∨ second.head? = some .whitespace) :
    Alternatives (first ++ second) [upper.joined .descendant lower] := by
  obtain ⟨before, left, afterLeft, rfl, hbefore, hleft, hafterLeft⟩ := hupper.exists_of_single
  obtain ⟨beforeRight, right, after, rfl, hbeforeRight, hright, hafter⟩ := hlower.exists_of_single
  have hne : afterLeft ++ beforeRight ≠ [] := by
    intro hnil
    obtain ⟨rfl, rfl⟩ := List.append_eq_nil_iff.mp hnil
    rcases hspace with hlast | hhead
    · obtain ⟨token, hsolid, hne⟩ := hleft.endsSolid.append before
      rw [List.append_nil, hsolid] at hlast
      exact hne (Option.some.inj hlast)
    · obtain ⟨token, rest, rfl, hopens⟩ := hright.exists_head
      cases hhead
      exact absurd hopens (by decide)
  have hjoint := Joint.descendant (List.forall_mem_append.mpr ⟨hafterLeft, hbeforeRight⟩) hne
  simpa using Alternatives.single hbefore (hleft.join hjoint hright) hafter

end Alternatives

end Grammar

end DomQuery
