import DomQuery.Proofs.Selector.Rendering
import DomQuery.Proofs.Selector.Seams

/-!
# Arguments of positional pseudo-classes

The lexer cuts the argument of a positional pseudo-class wherever a number or a name ends: `2n+1`
is a dimension and a number, `2n-1` is one dimension, `-n-3` is one name, and `+n` is a sign and a
name.  None of these tokens drops or changes a character, whitespace apart, so the parser gets the
argument back when it joins their texts, with one space for each run of spaces
(`tokens_of_isArgumentChar`).

Hence a positional pseudo-class stands for the positions that its argument writes, wherever the
cuts are (`SelectorList.ofText_positional`), and every formula is read as its two integers
(`AnPlusB.isReadAs_formula`).
-/

namespace DomQuery

namespace Lexer

variable {c : Char} {text rest : List Char}

/-- The characters of an argument: those of names, the plus sign and spaces. -/
def isArgumentChar (c : Char) : Bool :=
  isNameChar c || c == '+' || isSpace c

/-- The text with one space for every run of spaces. -/
def squeeze : List Char → List Char
  | [] => []
  | c :: rest =>
      if isSpace c then
        if rest.head?.any isSpace then squeeze rest else ' ' :: squeeze rest
      else c :: squeeze rest

/-! ### Runs of spaces -/

theorem squeeze_append {word : List Char} (h : ∀ c ∈ word, isSpace c = false) (rest : List Char) :
    squeeze (word ++ rest) = word ++ squeeze rest := by
  induction word with
  | nil => rfl
  | cons c word ih =>
      rw [List.cons_append, squeeze, if_neg (by simp [h c]), ih fun d hd => h d (by simp [hd]),
        List.cons_append]

theorem squeeze_space (h : isSpace c = true) (rest : List Char) :
    squeeze (c :: rest) = ' ' :: squeeze (rest.dropWhile isSpace) := by
  induction rest generalizing c with
  | nil => simp [squeeze, h]
  | cons d rest ih =>
      cases hd : isSpace d with
      | true =>
          rw [squeeze, if_pos h, if_pos (by simpa using hd), ih hd,
            List.dropWhile_cons_of_pos hd]
      | false =>
          rw [squeeze, if_pos h, if_neg (by simp [hd]), List.dropWhile_cons_of_neg (by simp [hd])]

theorem compact_squeeze (text : List Char) :
    AnPlusB.compact (squeeze text) = AnPlusB.compact text := by
  induction text with
  | nil => rfl
  | cons c rest ih =>
      cases hc : isSpace c with
      | true =>
          have hspace : AnPlusB.compact (c :: rest) = AnPlusB.compact rest := by
            simp [AnPlusB.compact, isBlank_of_isSpace hc]
          rw [hspace, ← ih, squeeze, if_pos hc]
          split
          · rfl
          · simp [AnPlusB.compact, show Text.isBlank ' ' = true by decide]
      | false =>
          have hcons : ∀ behind, AnPlusB.compact (c :: behind) =
              AnPlusB.compact [c] ++ AnPlusB.compact behind := AnPlusB.compact_append [c]
          rw [squeeze, if_neg (by simp [hc]), hcons (squeeze rest), hcons rest, ih]

/-! ### Tokens that keep their text -/

theorem isSpace_of_isNameChar (h : isNameChar c = true) : isSpace c = false := by
  by_contra hspace
  rw [(endsName_of_isSpace (by simpa using hspace)).1] at h
  exact absurd h (by simp)

theorem isNameChar_of_isDigit (h : c.isDigit = true) : isNameChar c = true := by
  simp [isNameChar, h]

theorem name_of_not_mem (h : '\\' ∉ text) :
    name text = (text.takeWhile isNameChar, text.dropWhile isNameChar) := by
  induction text with
  | nil => simp [name]
  | cons c rest ih =>
      simp only [List.mem_cons, not_or] at h
      cases hc : isNameChar c with
      | true => simp [name_char hc, ih h.2, hc]
      | false =>
          have hescape : startsEscape (c :: rest) = false := startsEscape_cons (Ne.symm h.1) rest
          rw [name, if_neg (by simp [hc]), if_neg (by simp [hescape])]
          simp [hc]

theorem number_of_not_mem (h : '.' ∉ text) :
    number text = ((sign text).1 ++ (sign text).2.takeWhile Char.isDigit,
      (sign text).2.dropWhile Char.isDigit) := by
  have hsuffix : (sign text).2.dropWhile Char.isDigit <:+ text :=
    (List.dropWhile_suffix _).trans ⟨_, sign_append text⟩
  have hfraction : fraction ((sign text).2.dropWhile Char.isDigit) =
      ([], (sign text).2.dropWhile Char.isDigit) := by
    unfold fraction
    split
    · next heq => exact absurd (hsuffix.subset (by rw [heq]; simp)) h
    · rfl
  simp only [number, hfraction, List.append_nil]

/-- The token is the text that is taken for it, and there is no space in this text. -/
structure Keeps (text : List Char) (token : Token) (rest : List Char) : Prop where
  isNthPart : Parser.isNthPart token = true
  append_eq : token.text.toList ++ rest = text
  isSpace_eq : ∀ c ∈ token.text.toList, isSpace c = false

theorem Keeps.squeeze_eq {token : Token} (h : Keeps text token rest) :
    squeeze text = token.text.toList ++ squeeze rest := by
  rw [← h.append_eq, squeeze_append h.isSpace_eq]

theorem isSpace_number (h : '.' ∉ text) : ∀ c ∈ (number text).1, isSpace c = false := by
  have hsign : ∀ c ∈ (sign text).1, isSpace c = false := by
    unfold sign
    split <;> simp [isSpace]
  intro c hc
  rw [number_of_not_mem h] at hc
  rcases List.mem_append.mp hc with hc | hc
  · exact hsign c hc
  · exact isSpace_of_isNameChar (isNameChar_of_isDigit (List.mem_takeWhile_imp hc))

theorem keeps_named (hescape : '\\' ∉ text) (hparen : '(' ∉ text) :
    Keeps text (named text).1 (named text).2 := by
  have hname := name_of_not_mem hescape
  have hident : named text =
      (.ident (String.ofList (text.takeWhile isNameChar)), text.dropWhile isNameChar) := by
    have hhead : (name text).2.head? ≠ some '(' := by
      rw [hname]
      exact fun hhead =>
        hparen ((List.dropWhile_suffix _).subset (List.mem_of_mem_head? hhead))
    rw [named_ident hhead, hname]
  rw [hident]
  refine ⟨rfl, ?_, ?_⟩
  · simp [Token.text]
  · simp only [Token.text, String.toList_ofList]
    exact fun c hc => isSpace_of_isNameChar (List.mem_takeWhile_imp hc)

theorem keeps_numeric (hescape : '\\' ∉ text) (hdot : '.' ∉ text) :
    Keeps text (numeric text).1 (numeric text).2 := by
  have happend := number_append text
  have hdigits := isSpace_number hdot
  have hunit : name (number text).2 =
      ((number text).2.takeWhile isNameChar, (number text).2.dropWhile isNameChar) :=
    name_of_not_mem fun hmem => hescape (happend ▸ List.mem_append_right _ hmem)
  unfold numeric
  dsimp only
  split
  · rw [hunit]
    refine ⟨rfl, ?_, fun c hc => ?_⟩
    · simpa [Token.text] using happend
    · simp only [Token.text, String.toList_append, String.toList_ofList, List.mem_append] at hc
      exact hc.elim (hdigits c) fun hc => isSpace_of_isNameChar (List.mem_takeWhile_imp hc)
  · refine ⟨rfl, ?_, ?_⟩
    · simpa [Token.text] using happend
    · simpa [Token.text] using hdigits

theorem keeps_sign (h : c = '+' ∨ c = '-') : Keeps (c :: rest) (punctuation c) rest := by
  rcases h with rfl | rfl <;> refine ⟨rfl, ?_, ?_⟩ <;> simp [punctuation, Token.text, isSpace]

/-! ### Reading an argument -/

theorem not_mem_of_isArgumentChar (h : ∀ c ∈ text, isArgumentChar c = true) {d : Char}
    (hd : d ∈ ['\\', '.', '(']) : d ∉ text := by
  intro hmem
  have hchar := h d hmem
  simp only [List.mem_cons, List.not_mem_nil, or_false] at hd
  rcases hd with rfl | rfl | rfl <;> exact absurd hchar (by decide)

/-- What begins neither a number nor a name is a sign. -/
theorem isSign_of_isArgumentChar (h : isArgumentChar c = true) (hspace : isSpace c = false)
    (hnumber : startsNumber (c :: rest) = false) (hname : startsName (c :: rest) = false) :
    c = '+' ∨ c = '-' := by
  by_contra hsign
  rw [not_or] at hsign
  simp only [isArgumentChar, isNameChar, Bool.or_eq_true, beq_iff_eq, hsign, hspace, or_false,
    Bool.false_eq_true] at h
  rcases h with hstart | hdigit
  · rw [startsName_of_isNameStart hstart rest] at hname
    exact absurd hname (by simp)
  · rw [startsNumber_of_startsFraction (startsFraction_of_isDigit hdigit rest)] at hnumber
    exact absurd hnumber (by simp)

/-- The first token of an argument is part of a formula and stands for what it is read from. -/
theorem exists_next_of_isArgumentChar (hne : text ≠ [])
    (h : ∀ c ∈ text, isArgumentChar c = true) :
    ∃ token rest, next text = (.ok (some token), rest) ∧ Parser.isNthPart token = true ∧
      squeeze text = token.text.toList ++ squeeze rest := by
  have hescape : '\\' ∉ text := not_mem_of_isArgumentChar h (by simp)
  cases hnumber : startsNumber text with
  | true =>
      have hkeeps := keeps_numeric hescape (not_mem_of_isArgumentChar h (by simp))
      exact ⟨_, _, next_of_startsNumber hnumber, hkeeps.isNthPart, hkeeps.squeeze_eq⟩
  | false =>
      cases hname : startsName text with
      | true =>
          have hkeeps := keeps_named hescape (not_mem_of_isArgumentChar h (by simp))
          exact ⟨_, _, next_of_startsName hname, hkeeps.isNthPart, hkeeps.squeeze_eq⟩
      | false =>
          obtain ⟨c, rest, rfl⟩ := List.exists_cons_of_ne_nil hne
          cases hspace : isSpace c with
          | true =>
              exact ⟨_, _, next_of_isSpace hspace rest, rfl, squeeze_space hspace rest⟩
          | false =>
              have hsign := isSign_of_isArgumentChar (h c (by simp)) hspace hnumber hname
              have hkeeps := @keeps_sign c rest hsign
              refine ⟨_, _, ?_, hkeeps.isNthPart, hkeeps.squeeze_eq⟩
              rcases hsign with rfl | rfl <;>
                rw [next_cons (by decide),
                  (Takes.punctuation hspace (by decide) hnumber hname).token_eq]

/-- The tokens of an argument are parts of a formula, and make up the argument. -/
theorem tokens_of_isArgumentChar (h : ∀ c ∈ text, isArgumentChar c = true) :
    ∃ found, tokens text = .ok found ∧ (∀ token ∈ found, Parser.isNthPart token = true) ∧
      Grammar.argument found = String.ofList (squeeze text) := by
  induction hlength : text.length using Nat.strongRecOn generalizing text with
  | _ n ih =>
      by_cases hne : text = []
      · subst hne
        exact ⟨[], Reads.tokens_nil, by simp, rfl⟩
      · obtain ⟨token, rest, hnext, hpart, hsqueeze⟩ := exists_next_of_isArgumentChar hne h
        have hlt : rest.length < n := hlength ▸ length_lt_of_next hnext
        obtain ⟨found, hfound, hparts, hargument⟩ :=
          ih _ hlt (fun c hc => h c ((next_suffix hnext).subset hc)) rfl
        refine ⟨token :: found, ?_, ?_, ?_⟩
        · rw [Reads.tokens_step hnext, hfound]
          rfl
        · simpa [hpart] using hparts
        · rw [Grammar.argument, hargument, hsqueeze, String.ofList_append, String.ofList_toList]

end Lexer

open Lexer

/-! ### Reading a pseudo-class -/

/-- The parser reads a positional pseudo-class as the positions that the texts of the tokens in it
make up. -/
theorem SelectorList.ofTokens_positional {name : String} {make : AnPlusB → SimpleSelector}
    {tokens : List Token} (hmake : Parser.positional? (Text.lowercase name) = some make)
    (hparts : ∀ token ∈ tokens, Parser.isNthPart token = true) :
    SelectorList.ofTokens (writtenFunctionTokens name tokens) =
      (AnPlusB.ofText (Grammar.argument tokens)).map fun positions =>
        [.compound [make positions]] := by
  -- one step for each reader on the way down to the argument
  obtain ⟨steps, hsteps⟩ : ∃ steps, 3 * (writtenFunctionTokens name tokens).length + 4 =
      steps + 5 := ⟨3 * (writtenFunctionTokens name tokens).length - 1, by
        simp [writtenFunctionTokens]; omega⟩
  have hpseudo : Parser.pseudo (steps + 1) (.function name :: (tokens ++ [.rightParen])) =
      (AnPlusB.ofText (Grammar.argument tokens)).map fun positions => (make positions, []) := by
    rw [Parser.pseudo, hmake]
    dsimp only
    rw [Parser.nth, Parser.nthText_complete hparts]
    change AnPlusB.ofText (Grammar.argument tokens) >>= (fun positions => pure (make positions, []))
      = _
    cases AnPlusB.ofText (Grammar.argument tokens) <;> rfl
  have hcompound : Parser.compound (steps + 3) (writtenFunctionTokens name tokens) =
      (AnPlusB.ofText (Grammar.argument tokens)).map fun positions => ([make positions], []) := by
    rw [writtenFunctionTokens, Parser.compound, Parser.simples, hpseudo]
    · cases AnPlusB.ofText (Grammar.argument tokens) <;> rfl
    · simp
    · simp
  have hskip : Parser.skipSpace (writtenFunctionTokens name tokens) =
      writtenFunctionTokens name tokens := Parser.skipSpace_cons (by simp)
  rw [SelectorList.ofTokens, hsteps, Parser.list, hskip, Parser.complex, hcompound]
  cases AnPlusB.ofText (Grammar.argument tokens) <;> rfl

/-- **A positional pseudo-class stands for the positions that its argument writes**, wherever the
lexer cuts the argument. -/
theorem SelectorList.ofText_positional {name : String} {make : AnPlusB → SimpleSelector}
    {argument : List Char} (hname : Identifier.IsKeyword name)
    (hmake : Parser.positional? (Text.lowercase name) = some make)
    (hargument : ∀ c ∈ argument, isArgumentChar c = true) :
    SelectorList.ofText (String.ofList (writtenFunction name argument)) =
      (AnPlusB.ofText (String.ofList (squeeze argument))).map fun positions =>
        [.compound [make positions]] := by
  obtain ⟨tokens, htokens, hparts, hjoined⟩ := tokens_of_isArgumentChar hargument
  have hparen : Separates ')' := by
    constructor
    · constructor <;> decide
    · decide
  -- the parenthesis ends the argument
  have hclose : Lexer.tokens [')'] = .ok [.rightParen] :=
    (reads_punctuation (by decide) rfl).tokens_eq
  have hread : Lexer.tokens (writtenFunction name argument) =
      .ok (writtenFunctionTokens name tokens) := by
    rw [writtenFunction, (reads_functionHead hname _).tokens_append,
      tokens_append hparen [] htokens, hclose]
    rfl
  rw [SelectorList.ofText, Token.ofText, String.toList_ofList, hread, ← hjoined]
  exact SelectorList.ofTokens_positional hmake hparts

namespace AnPlusB

/-- What both positional pseudo-classes with this argument are read as. -/
structure IsReadAs (argument : List Char) (result : Except SelectorError AnPlusB) : Prop where
  nthChild : SelectorList.ofText (":nth-child(" ++ String.ofList argument ++ ")") =
    result.map fun positions => [.compound [.nthChild positions]]
  nthLastChild : SelectorList.ofText (":nth-last-child(" ++ String.ofList argument ++ ")") =
    result.map fun positions => [.compound [.nthLastChild positions]]

theorem isReadAs_ofText {argument : List Char} (h : ∀ c ∈ argument, isArgumentChar c = true) :
    IsReadAs argument (ofText (String.ofList (squeeze argument))) := by
  constructor
  · have htext : ":nth-child(" ++ String.ofList argument ++ ")" =
        String.ofList (writtenFunction "nth-child" argument) := by
      simp [← String.toList_inj, writtenFunction]
    rw [htext]
    exact SelectorList.ofText_positional ⟨by decide, by decide⟩
      (by simp [Grammar.lowercase_nthChild, Parser.positional?]) h
  · have htext : ":nth-last-child(" ++ String.ofList argument ++ ")" =
        String.ofList (writtenFunction "nth-last-child" argument) := by
      simp [← String.toList_inj, writtenFunction]
    rw [htext]
    exact SelectorList.ofText_positional ⟨by decide, by decide⟩
      (by simp [Grammar.lowercase_nthLastChild, Parser.positional?]) h

variable {text before after : List Char} {a b : Int}

theorem isArgumentChar_of_isNumeric {c : Char} (h : IsNumeric c) : isArgumentChar c = true := by
  rcases h with hdigit | rfl | rfl
  · simp [isArgumentChar, isNameChar_of_isDigit hdigit]
  · decide
  · decide

theorem isArgumentChar_of_isSpace {c : Char} (h : isSpace c = true) :
    isArgumentChar c = true := by
  simp [isArgumentChar, h]

theorem Formula.isArgumentChar (h : Formula text a b) :
    ∀ c ∈ text, Lexer.isArgumentChar c = true := by
  intro c hc
  rcases h.mem_cases c hc with hnumeric | hspace | rfl | rfl
  · exact isArgumentChar_of_isNumeric hnumeric
  · exact isArgumentChar_of_isSpace hspace
  · decide
  · decide

/-- **A formula is read as its two integers**, wherever the lexer cuts it, and with spaces around
it.  If one of the integers does not have 32 bits, the formula is refused. -/
theorem isReadAs_formula (h : Formula text a b) (hbefore : Spaces before) (hafter : Spaces after) :
    (∀ positions : AnPlusB, positions.a.toInt = a → positions.b.toInt = b →
      IsReadAs (before ++ (text ++ after)) (.ok positions)) ∧
    (¬ (FitsInt32 a ∧ FitsInt32 b) →
      IsReadAs (before ++ (text ++ after)) (.error (.invalidNth
        (String.ofList (Text.trim (squeeze (before ++ (text ++ after)))))))) := by
  have hchars : ∀ c ∈ before ++ (text ++ after), Lexer.isArgumentChar c = true := by
    intro c hc
    simp only [List.mem_append] at hc
    rcases hc with hc | hc | hc
    · exact isArgumentChar_of_isSpace (hbefore c hc)
    · exact h.isArgumentChar c hc
    · exact isArgumentChar_of_isSpace (hafter c hc)
  have hread := isReadAs_ofText hchars
  -- neither the spaces around the formula nor the squeezed ones in it count
  have hcompact : ofCompact? (compact (squeeze (before ++ (text ++ after)))) =
      (ofInt? a).bind fun a => (ofInt? b).map fun b => ⟨a, b⟩ := by
    rw [compact_squeeze, compact_between hbefore hafter, ofCompact?_formula h]
  rw [ofText, String.toList_ofList, hcompact] at hread
  constructor
  · rintro positions rfl rfl
    rwa [ofInt?_toInt, ofInt?_toInt] at hread
  · intro hfits
    rw [not_and_or] at hfits
    rcases hfits with hfits | hfits
    · rwa [ofInt?_eq_none hfits] at hread
    · cases ha : ofInt? a with
      | none => rwa [ha] at hread
      | some value => rwa [ha, ofInt?_eq_none hfits] at hread

/-- The least integers with many spaces, and an integer that is one too large. -/
theorem isReadAs_formula_bounds :
    Formula "-2147483648N\n-\r 07".toList (-2147483648) (-7) ∧
      IsReadAs " \t-2147483648N\n-\r 07\x0c".toList (.ok ⟨-2147483648, -7⟩) ∧
      Formula "+n\t + 2147483648".toList 1 2147483648 ∧
      ¬ (FitsInt32 1 ∧ FitsInt32 2147483648) ∧
      IsReadAs "+n\t + 2147483648".toList (.error (.invalidNth "+n + 2147483648")) := by
  have hleast : Formula ('-' :: "2147483648".toList ++ 'N' ::
      ("\n".toList ++ '-' :: ("\r ".toList ++ "07".toList))) (-2147483648) (-7) :=
    .linear (.numeral (@Numeral.minus _ 2147483648 ⟨0, by decide⟩)) (Or.inr rfl)
      (.signed (by simp [Spaces, isSpace]) (.spaced (Or.inr rfl) (by simp [Spaces, isSpace])
        (@Numeral.minus _ 7 ⟨1, by decide⟩)))
  have hlarge : Formula (['+'] ++ 'n' ::
      ("\t ".toList ++ '+' :: (" ".toList ++ "2147483648".toList))) 1 2147483648 :=
    .linear .plusOne (Or.inl rfl)
      (.signed (by simp [Spaces, isSpace]) (.spaced (Or.inl rfl) (by simp [Spaces, isSpace])
        (@Numeral.plus _ 2147483648 ⟨0, by decide⟩)))
  have hspaces : Spaces " \t".toList ∧ Spaces "\x0c".toList ∧ Spaces [] := by
    simp [Spaces, isSpace]
  obtain ⟨hread, -⟩ := isReadAs_formula hleast hspaces.1 hspaces.2.1
  obtain ⟨-, hrefuse⟩ := isReadAs_formula hlarge hspaces.2.2 hspaces.2.2
  have hfits : ¬ (FitsInt32 1 ∧ FitsInt32 2147483648) := by simp [FitsInt32]
  exact ⟨hleast, hread ⟨-2147483648, -7⟩ rfl rfl, hlarge, hfits, hrefuse hfits⟩

end AnPlusB

end DomQuery
