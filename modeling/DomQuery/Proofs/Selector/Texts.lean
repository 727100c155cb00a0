import DomQuery.Proofs.Selector.Rendering
import DomQuery.Proofs.Selector.Seams

/-!
# Selectors put together from texts

Texts that write selectors can be put together.  With commas between them they write the
selectors of all of them (`SelectorList.ofText_intercalate`), and with a combinator between them,
two texts write one selector behind the other (`SelectorList.ofText_append`).

The sign of a combinator ends every text in front of it.  A space does not: an escape by number at
the end of the text would take it for its own, so the text must have no escape
(`SelectorList.ofText_space`), or it has to be read alike in front of everything that ends a name,
which is what `ComplexSelector.Spelled` says (`ComplexSelector.Spelled.ofText_space`).
-/

namespace DomQuery

open Lexer Grammar

/-- A text writes selectors if and only if its tokens derive them. -/
theorem SelectorList.ofText_eq_ok_iff {text : String} {selectors : SelectorList} :
    SelectorList.ofText text = .ok selectors ↔
      ∃ tokens, Lexer.tokens text.toList = .ok tokens ∧ Alternatives tokens selectors := by
  rw [SelectorList.ofText, Token.ofText, Parser.bind_eq_ok]
  simp only [SelectorList.ofTokens_eq_ok_iff]

/-! ### Commas between texts -/

/-- With a comma between them, two texts write the selectors of both. -/
theorem SelectorList.ofText_comma {first second : String} {left right : SelectorList}
    (hleft : SelectorList.ofText first = .ok left)
    (hright : SelectorList.ofText second = .ok right) :
    SelectorList.ofText (first ++ "," ++ second) = .ok (left ++ right) := by
  obtain ⟨leftTokens, hleftRead, hleftDerives⟩ := ofText_eq_ok_iff.mp hleft
  obtain ⟨rightTokens, hrightRead, hrightDerives⟩ := ofText_eq_ok_iff.mp hright
  refine ofText_eq_ok_iff.mpr ⟨_, ?_, hleftDerives.append hrightDerives⟩
  have hcomma : Reads (',' :: second.toList) [.comma] second.toList :=
    reads_punctuation (by decide) rfl
  have hseam := tokens_append separates_comma second.toList hleftRead
  rw [hcomma.tokens_append, hrightRead] at hseam
  simpa [Except.map] using hseam

/-- With commas between them, texts write the selectors of all of them. -/
theorem SelectorList.ofText_intercalate {texts : List String} {selectors : List ComplexSelector}
    (hne : texts ≠ [])
    (h : List.Forall₂ (fun text selector => SelectorList.ofText text = .ok [selector]) texts
      selectors) : SelectorList.ofText (",".intercalate texts) = .ok selectors := by
  induction h with
  | nil => exact absurd rfl hne
  | @cons text selector texts selectors hfirst hrest ih =>
      cases hrest with
      | nil => rwa [String.intercalate_singleton]
      | cons hsecond hothers =>
          rw [String.intercalate_cons_cons]
          exact ofText_comma hfirst (ih (by simp))

/-! ### How accepted texts begin -/

theorem Lexer.numeric_ne (text : List Char) :
    (numeric text).1 ≠ .whitespace ∧ opensCompound (numeric text).1 = false := by
  unfold numeric
  dsimp only
  split <;> exact ⟨by simp, rfl⟩

namespace SelectorList

variable {text : String} {selectors : SelectorList}

theorem exists_head_of_ofText (h : SelectorList.ofText text = .ok selectors) {token : Token}
    {rest : List Char} (hnext : next text.toList = (.ok (some token), rest)) :
    token = .whitespace ∨ opensCompound token = true := by
  obtain ⟨tokens, hread, hderives⟩ := ofText_eq_ok_iff.mp h
  obtain ⟨first, more, rfl, hopens⟩ := hderives.exists_head
  obtain ⟨others, -, heq⟩ := Reads.exists_of_tokens_step hnext hread
  cases heq
  exact hopens

/-- No accepted text begins with a number. -/
theorem startsNumber_of_ofText (h : SelectorList.ofText text = .ok selectors) :
    startsNumber text.toList = false := by
  by_contra hnumber
  rw [Bool.not_eq_false] at hnumber
  obtain ⟨hspace, hopens⟩ := numeric_ne text.toList
  rcases exists_head_of_ofText h (next_of_startsNumber hnumber) with heq | htrue
  · exact hspace heq
  · exact absurd htrue (by simp [hopens])

/-- No accepted text begins with a combinator. -/
theorem head_of_ofText (h : SelectorList.ofText text = .ok selectors) {c : Char}
    (hc : c ∈ ['>', '+', '~']) : text.toList.head? ≠ some c := by
  intro hhead
  obtain ⟨rest, heq⟩ := List.head?_eq_some_iff.mp hhead
  have hnumber := startsNumber_of_ofText h
  rw [heq] at hnumber
  simp only [List.mem_cons, List.not_mem_nil, or_false] at hc
  have hread : Reads (c :: rest) [.delim c] rest := by
    rcases hc with rfl | rfl | rfl <;> exact reads_punctuation (by decide) hnumber
  cases hread with
  | step hnext _ =>
      rw [← heq] at hnext
      rcases exists_head_of_ofText h hnext with hspace | hopens
      · exact absurd hspace (by simp)
      · rcases hc with rfl | rfl | rfl <;> exact absurd hopens (by decide)

theorem ne_empty_of_ofText (h : SelectorList.ofText text = .ok selectors) : text ≠ "" := by
  rintro rfl
  obtain ⟨tokens, hread, hderives⟩ := ofText_eq_ok_iff.mp h
  obtain ⟨token, rest, rfl, -⟩ := hderives.exists_head
  rw [String.toList_empty, Reads.tokens_nil] at hread
  exact absurd hread (by simp)

end SelectorList

/-! ### Spaces around texts -/

/-- Spaces at the beginning of a text are a token of their own. -/
theorem Lexer.tokens_of_isSpace {c : Char} (hc : isSpace c = true) (text : List Char) :
    tokens (c :: text) = (tokens (text.dropWhile isSpace)).map (.whitespace :: ·) :=
  Reads.tokens_step (next_of_isSpace hc text)

namespace SelectorList

variable {text : String} {selectors : SelectorList} {selector : ComplexSelector} {c : Char}

/-- A space in front of a text is a token of its own, or part of the whitespace that the text
begins with. -/
theorem exists_tokens_cons_space (hc : isSpace c = true)
    (h : SelectorList.ofText text = .ok selectors) :
    ∃ found, tokens (c :: text.toList) = .ok found ∧ found.head? = some .whitespace ∧
      Alternatives found selectors := by
  obtain ⟨found, hread, hderives⟩ := ofText_eq_ok_iff.mp h
  have hspaces := tokens_of_isSpace hc text.toList
  cases htext : text.toList with
  | nil =>
      rw [htext] at hread hspaces
      rw [List.dropWhile_nil, hread] at hspaces
      exact ⟨_, hspaces, rfl, hderives.whitespace_cons⟩
  | cons d rest =>
      rw [htext] at hread hspaces
      cases hd : isSpace d with
      | false =>
          rw [List.dropWhile_cons_of_neg (by simp [hd]), hread] at hspaces
          exact ⟨_, hspaces, rfl, hderives.whitespace_cons⟩
      | true =>
          rw [List.dropWhile_cons_of_pos hd, ← tokens_of_isSpace hd, hread] at hspaces
          refine ⟨found, hspaces, ?_, hderives⟩
          obtain ⟨others, -, rfl⟩ := Reads.exists_of_tokens_step (next_of_isSpace hd rest) hread
          rfl

theorem ofText_cons_space (hc : isSpace c = true) (h : SelectorList.ofText text = .ok selectors) :
    SelectorList.ofText (String.ofList (c :: text.toList)) = .ok selectors := by
  obtain ⟨found, hread, -, hderives⟩ := exists_tokens_cons_space hc h
  exact ofText_eq_ok_iff.mpr ⟨found, by rwa [String.toList_ofList], hderives⟩

/-- Spaces in front of an accepted text do not matter. -/
theorem ofText_spaces_append {spaces : List Char} (hspaces : ∀ c ∈ spaces, isSpace c = true)
    (h : SelectorList.ofText text = .ok selectors) :
    SelectorList.ofText (String.ofList (spaces ++ text.toList)) = .ok selectors := by
  induction spaces with
  | nil => rwa [List.nil_append, String.ofList_toList]
  | cons c spaces ih =>
      obtain ⟨hc, hrest⟩ := List.forall_mem_cons.mp hspaces
      simpa using ofText_cons_space hc (ih hrest)

/-- A space behind an accepted text does not matter, even if an escape takes it. -/
theorem ofText_concat_space (hc : isSpace c = true)
    (h : SelectorList.ofText text = .ok selectors) :
    SelectorList.ofText (String.ofList (text.toList ++ [c])) = .ok selectors := by
  obtain ⟨found, hread, hderives⟩ := ofText_eq_ok_iff.mp h
  have hends : EndsName [] := by simp [EndsName]
  have hspace : tokens [c] = .ok [.whitespace] := by
    rw [tokens_of_isSpace hc, List.dropWhile_nil, Reads.tokens_nil]
    rfl
  obtain ⟨left, hseam, hleft⟩ := tokens_append_of_ends (ends_space hc hends text.toList) hread
  rw [List.dropWhile_nil] at hleft
  refine ofText_eq_ok_iff.mpr ?_
  rw [String.toList_ofList, hseam]
  rcases hleft with rfl | ⟨-, ⟨-, rfl⟩ | ⟨-, rfl⟩⟩
  · exact ⟨found ++ [.whitespace], by rw [hspace]; rfl, hderives.concat_whitespace⟩
  · exact ⟨found, by simp [Reads.tokens_nil, Except.map], hderives⟩
  · exact ⟨found, by simp [Reads.tokens_nil, Except.map], hderives⟩

/-- The spaces in front of an accepted text can be left out. -/
theorem exists_tokens_dropWhile (h : SelectorList.ofText text = .ok [selector]) :
    ∃ found, tokens (text.toList.dropWhile isSpace) = .ok found ∧
      Alternatives found [selector] := by
  obtain ⟨found, hread, hderives⟩ := ofText_eq_ok_iff.mp h
  cases htext : text.toList with
  | nil => exact ⟨found, by rwa [htext] at hread, hderives⟩
  | cons c rest =>
      rw [htext] at hread
      cases hc : isSpace c with
      | false => exact ⟨found, by rwa [List.dropWhile_cons_of_neg (by simp [hc])], hderives⟩
      | true =>
          obtain ⟨others, hothers, rfl⟩ := Reads.exists_of_tokens_step (next_of_isSpace hc rest) hread
          rw [List.dropWhile_cons_of_pos hc]
          exact ⟨others, hothers, hderives.of_whitespace_cons⟩

end SelectorList

/-! ### Combinators between texts -/

theorem Combinator.ofSign?_cases {c : Char} {combinator : Combinator}
    (h : Combinator.ofSign? c = some combinator) : c ∈ ['>', '+', '~'] := by
  have hsign := List.find?_some h
  have hmem := List.mem_of_find?_eq_some h
  simp only [List.mem_cons, List.not_mem_nil, or_false, beq_iff_eq] at hmem hsign
  rcases hmem with rfl | rfl | rfl <;> rw [← hsign] <;> decide

theorem Combinator.exists_ofSign? {c : Char} (hc : c ∈ ['>', '+', '~']) :
    ∃ combinator, Combinator.ofSign? c = some combinator := by
  simp only [List.mem_cons, List.not_mem_nil, or_false] at hc
  rcases hc with rfl | rfl | rfl <;> exact ⟨_, rfl⟩

theorem Lexer.separates_sign {c : Char} (hc : c ∈ ['>', '+', '~']) : Separates c := by
  simp only [List.mem_cons, List.not_mem_nil, or_false] at hc
  rcases hc with rfl | rfl | rfl
  all_goals
    constructor
    · constructor <;> decide
    · decide

namespace SelectorList

variable {first second : String} {upper lower : ComplexSelector} {c : Char}
  {combinator : Combinator}

/-- The sign of a combinator in front of an accepted text is a token of its own. -/
theorem reads_sign {selectors : SelectorList} (hc : c ∈ ['>', '+', '~'])
    (h : SelectorList.ofText second = .ok selectors) :
    Reads (c :: second.toList) [.delim c] second.toList := by
  have hfraction : startsFraction second.toList = false := by
    by_contra hstarts
    have hnumber := startsNumber_of_startsFraction (by simpa using hstarts)
    rw [startsNumber_of_ofText h] at hnumber
    exact absurd hnumber (by simp)
  simp only [List.mem_cons, List.not_mem_nil, or_false] at hc
  rcases hc with rfl | rfl | rfl
  · exact reads_punctuation (by decide) rfl
  · exact reads_punctuation (by decide) hfraction
  · exact reads_punctuation (by decide) rfl

/-- Two texts with the sign of a combinator between them. -/
theorem ofText_sign (hfirst : SelectorList.ofText first = .ok [upper])
    (hsign : Combinator.ofSign? c = some combinator)
    (hsecond : SelectorList.ofText second = .ok [lower]) :
    SelectorList.ofText (String.ofList (first.toList ++ c :: second.toList)) =
      .ok [upper.joined combinator lower] := by
  obtain ⟨left, hleft, hupper⟩ := ofText_eq_ok_iff.mp hfirst
  obtain ⟨right, hright, hlower⟩ := ofText_eq_ok_iff.mp hsecond
  have hc := Combinator.ofSign?_cases hsign
  refine ofText_eq_ok_iff.mpr ⟨_, ?_, hupper.join_sign hsign hlower⟩
  rw [String.toList_ofList, tokens_append (separates_sign hc) _ hleft,
    (reads_sign hc hsecond).tokens_append, hright]
  rfl

/-- Two texts with a space between them, the first one without escapes. -/
theorem ofText_space (hfirst : SelectorList.ofText first = .ok [upper])
    (hplain : '\\' ∉ first.toList) (hc : isSpace c = true)
    (hsecond : SelectorList.ofText second = .ok [lower]) :
    SelectorList.ofText (String.ofList (first.toList ++ c :: second.toList)) =
      .ok [upper.joined .descendant lower] := by
  obtain ⟨left, hleft, hupper⟩ := ofText_eq_ok_iff.mp hfirst
  obtain ⟨rest, hseam, hrest⟩ :=
    tokens_append_of_ends (ends_space_of_not_mem hplain hc second.toList) hleft
  rw [ofText_eq_ok_iff, String.toList_ofList, hseam]
  rcases hrest with rfl | ⟨-, ⟨hmem, -⟩ | ⟨hlast, rfl⟩⟩
  · obtain ⟨right, hright, hhead, hlower⟩ := exists_tokens_cons_space hc hsecond
    rw [hright]
    exact ⟨_, rfl, hupper.join_space hlower (Or.inr hhead)⟩
  · exact absurd hmem hplain
  · -- the spaces belong to the whitespace at the end of the first text
    obtain ⟨right, hright, hlower⟩ := exists_tokens_dropWhile hsecond
    rw [hright]
    exact ⟨_, rfl, hupper.join_space hlower (Or.inl hlast)⟩

/-- **Parsing is compositional.**  With a comma between them, two accepted texts write the selectors
of both.  With a combinator between them, as it is written, two texts of one selector each write a
single selector: its parts are those of the second one, with the combinator on the left of the last
compound, and then those of the first one.  A space alone needs a first text without escapes. -/
theorem ofText_append {left right : SelectorList} (hfirst : SelectorList.ofText first = .ok left)
    (hsecond : SelectorList.ofText second = .ok right) :
    SelectorList.ofText (first ++ "," ++ second) = .ok (left ++ right) ∧
      ∀ upper lower : ComplexSelector, left = [upper] → right = [lower] →
        ∀ combinator : Combinator, (combinator = .descendant → '\\' ∉ first.toList) →
          ∃ selector : ComplexSelector,
            SelectorList.ofText (first ++ String.ofList combinator.written ++ second) =
              .ok [selector] ∧
            selector.parts =
              lower.parts.modifyLast (fun part => (part.1, some combinator)) ++ upper.parts := by
  refine ⟨ofText_comma hfirst hsecond, ?_⟩
  intro upper lower hupper hlower combinator hplain
  subst hupper hlower
  refine ⟨upper.joined combinator lower, ?_, ComplexSelector.parts_joined upper combinator lower⟩
  have hspace : isSpace ' ' = true := by decide
  -- the spaces around a sign count as spaces of the texts
  have hsigned : ∀ {c : Char}, Combinator.ofSign? c = some combinator →
      SelectorList.ofText (first ++ String.ofList [' ', c, ' '] ++ second) =
        .ok [upper.joined combinator lower] := by
    intro c hsign
    have hjoined := ofText_sign (ofText_concat_space hspace hfirst) hsign
      (ofText_cons_space hspace hsecond)
    have htext : first ++ String.ofList [' ', c, ' '] ++ second =
        String.ofList ((String.ofList (first.toList ++ [' '])).toList ++
          c :: (String.ofList (' ' :: second.toList)).toList) := by
      rw [← String.toList_inj]
      simp
    rw [htext]
    exact hjoined
  cases combinator with
  | descendant =>
      have htext : first ++ String.ofList [' '] ++ second =
          String.ofList (first.toList ++ ' ' :: second.toList) := by
        rw [← String.toList_inj]
        simp
      rw [Combinator.written, htext]
      exact ofText_space hfirst (hplain rfl) hspace hsecond
  | child => exact hsigned rfl
  | nextSibling => exact hsigned rfl
  | subsequentSibling => exact hsigned rfl

/-- A comment and spaces in front of the seam, and an escape and a string behind it. -/
theorem ofText_append_seam :
    SelectorList.ofText (" ul/* a */ " ++ "," ++ "\\6c i[a='b']") = .ok ([.compound [.tag "ul"]] ++
      [.compound [.tag "li", .hasAttribute "a" (some (.equals, "b"))]]) ∧
    ∃ selector : ComplexSelector,
      SelectorList.ofText (" ul/* a */ " ++ String.ofList [' '] ++ "\\6c i[a='b']") =
        .ok [selector] ∧
      selector.parts = [([.tag "li", .hasAttribute "a" (some (.equals, "b"))], some .descendant),
        ([.tag "ul"], none)] := by
  have hfirst : SelectorList.ofText " ul/* a */ " = .ok [.compound [.tag "ul"]] := by
    have htokens : Token.ofText " ul/* a */ " = .ok [.whitespace, .ident "ul", .whitespace] := by
      decide +kernel
    rw [SelectorList.ofText, htokens]
    rfl
  have hsecond : SelectorList.ofText "\\6c i[a='b']" =
      .ok [.compound [.tag "li", .hasAttribute "a" (some (.equals, "b"))]] := by
    have htokens : Token.ofText "\\6c i[a='b']" = .ok [.ident "li", .leftBracket, .ident "a",
        .delim '=', .string "b", .rightBracket] := by decide +kernel
    rw [SelectorList.ofText, htokens]
    rfl
  obtain ⟨hcomma, hjoined⟩ := ofText_append hfirst hsecond
  exact ⟨hcomma, hjoined _ _ rfl rfl .descendant fun _ => by decide⟩

end SelectorList

/-! ### Texts that are read alike in front of everything -/

/-- The text is read as tokens of the compound in front of everything that ends a name. -/
def SpelledCompound (simples : List SimpleSelector) (text : List Char) : Prop :=
  ∃ tokens, Compound tokens simples ∧
    ∀ rest, EndsName rest → Reads (text ++ rest) tokens rest

namespace ComplexSelector

/-- The text is read as tokens of the selector in front of everything that ends a name. -/
def Spelled (selector : ComplexSelector) (text : List Char) : Prop :=
  ∃ tokens, Complex tokens selector ∧
    ∀ rest, EndsName rest → Reads (text ++ rest) tokens rest

namespace Spelled

variable {left lower : ComplexSelector} {text : List Char} {simples : List SimpleSelector}

theorem compound (h : SpelledCompound simples text) :
    (ComplexSelector.compound simples).Spelled text := by
  obtain ⟨tokens, hcompound, hreads⟩ := h
  exact ⟨tokens, Complex.compound hcompound, hreads⟩

/-- A compound behind the child combinator with its spaces. -/
theorem child (h : left.Spelled text) {c : Char} {more : List Char}
    (hcompound : SpelledCompound simples (c :: more)) (hc : isSpace c = false) :
    (ComplexSelector.combined left .child simples).Spelled
      (text ++ ' ' :: '>' :: ' ' :: c :: more) := by
  obtain ⟨tokens, hcomplex, hreads⟩ := h
  obtain ⟨others, hothers, hmore⟩ := hcompound
  have hjoint := joint_writtenTokens .child
  refine ⟨_, Complex.combined hcomplex hjoint hothers, fun rest hrest => ?_⟩
  have hends : EndsName (' ' :: '>' :: ' ' :: (c :: more ++ rest)) :=
    endsName_cons (by decide) (by decide) (by decide) _
  have hfirst : Reads (' ' :: '>' :: ' ' :: (c :: more ++ rest)) [.whitespace]
      ('>' :: ' ' :: (c :: more ++ rest)) := by
    refine reads_space fun d hd => ?_
    cases hd
    decide
  have hsign : Reads ('>' :: ' ' :: (c :: more ++ rest)) [.delim '>'] (' ' :: (c :: more ++ rest)) :=
    reads_punctuation (by decide) rfl
  have hlast : Reads (' ' :: (c :: more ++ rest)) [.whitespace] (c :: more ++ rest) := by
    refine reads_space fun d hd => ?_
    cases hd
    exact hc
  have hall := (hreads _ hends).append
    ((hfirst.append (hsign.append hlast)).append (hmore rest hrest))
  simpa [Combinator.writtenTokens, Combinator.sign] using hall

theorem ofText (h : left.Spelled text) : SelectorList.ofText (String.ofList text) = .ok [left] := by
  obtain ⟨tokens, hcomplex, hreads⟩ := h
  have hread := hreads [] (by simp [EndsName])
  rw [List.append_nil] at hread
  have hderives := Alternatives.single Space.nil hcomplex Space.nil
  refine SelectorList.ofText_eq_ok_iff.mpr ⟨tokens, ?_, by simpa using hderives⟩
  rw [String.toList_ofList, hread.tokens_eq]

/-- A selector behind the sign of a combinator. -/
theorem ofText_sign (h : left.Spelled text) {other : String} {c : Char} {combinator : Combinator}
    (hsign : Combinator.ofSign? c = some combinator)
    (hother : SelectorList.ofText other = .ok [lower]) :
    SelectorList.ofText (String.ofList (text ++ ' ' :: c :: other.toList)) =
      .ok [left.joined combinator lower] := by
  have hfirst := SelectorList.ofText_concat_space (by decide : isSpace ' ' = true) h.ofText
  simpa using SelectorList.ofText_sign hfirst hsign hother

/-- A selector behind a space. -/
theorem ofText_space (h : left.Spelled text) {other : String}
    (hother : SelectorList.ofText other = .ok [lower]) :
    SelectorList.ofText (String.ofList (text ++ ' ' :: other.toList)) =
      .ok [left.joined .descendant lower] := by
  obtain ⟨tokens, hcomplex, hreads⟩ := h
  obtain ⟨right, hright, hhead, hlower⟩ :=
    SelectorList.exists_tokens_cons_space (by decide : isSpace ' ' = true) hother
  have hleft := hreads (' ' :: other.toList)
    (endsName_cons (by decide) (by decide) (by decide) other.toList)
  have hupper : Alternatives tokens [left] := by
    simpa using Alternatives.single Space.nil hcomplex Space.nil
  refine SelectorList.ofText_eq_ok_iff.mpr ⟨_, ?_, hupper.join_space hlower (Or.inr hhead)⟩
  rw [String.toList_ofList, hleft.tokens_append, hright]
  rfl

end Spelled

end ComplexSelector

/-! ### Compounds of a path -/

/-- A functional pseudo-class for one position. -/
theorem simples_nthChild {position : Nat} (h : position < 2147483648) :
    Simples (writtenFunctionTokens "nth-child"
      [.number (String.ofList (Nat.toDigits 10 position))]) [.nthChild (.single position)] := by
  have hsimple : Simple (writtenFunctionTokens "nth-child"
      [.number (String.ofList (Nat.toDigits 10 position))]) (.nthChild (.single position)) := by
    have hmake : Parser.positional? (Text.lowercase "nth-child") = some .nthChild := by
      rw [lowercase_nthChild]
      rfl
    refine Simple.nth hmake (List.forall_mem_singleton.mpr rfl) ?_ rfl
    rw [← AnPlusB.ofText_toDigits h]
    congr 1
    rw [← String.toList_inj]
    simp [argument, Token.text]
  simpa using Simples.cons hsimple Simples.nil

theorem reads_nthChild (position : Nat) (rest : List Char) :
    Reads (writtenFunction "nth-child" (Nat.toDigits 10 position) ++ rest)
      (writtenFunctionTokens "nth-child" [.number (String.ofList (Nat.toDigits 10 position))])
      rest :=
  reads_writtenFunction ⟨by decide, by decide⟩ (reads_toDigits position rest)

theorem spelledCompound_nthChild {position : Nat} (h : position < 2147483648) :
    SpelledCompound [.nthChild (.single position)]
      (writtenFunction "nth-child" (Nat.toDigits 10 position)) :=
  ⟨_, Compound.simples (simples_nthChild h) (by simp), fun rest _ => reads_nthChild position rest⟩

theorem spelledCompound_scope : SpelledCompound [.pseudoClass .scope] ":scope".toList := by
  have hshape : isWellShapedCompound [.pseudoClass .scope] = true := by decide
  exact ⟨_, compound_compoundTokens hshape, fun rest hrest => reads_compound hshape hrest⟩

/-- The text is read as one token, and a compound can begin with this token for the condition. -/
def SpelledType (simple : SimpleSelector) (text : List Char) : Prop :=
  ∃ token, (∀ tokens simples, Simples tokens simples →
      Compound (token :: tokens) (simple :: simples)) ∧
    ∀ rest, EndsName rest → Reads (text ++ rest) [token] rest

theorem spelledType_tag {name : String} (h : Identifier.IsKeyword name)
    (hlower : Text.lowercase name = name) : SpelledType (.tag name) name.toList := by
  refine ⟨.ident name, fun tokens simples hsimples => ?_, fun rest hrest => reads_keyword h hrest⟩
  have htag := @Compound.tag name tokens simples hsimples
  rwa [hlower] at htag

theorem spelledType_universal : SpelledType .universal ['*'] :=
  ⟨.delim '*', fun _ _ hsimples => Compound.universal hsimples,
    fun _ _ => reads_punctuation (by decide) rfl⟩

namespace SpelledType

variable {simple : SimpleSelector} {text : List Char}

theorem compound (h : SpelledType simple text) : SpelledCompound [simple] text := by
  obtain ⟨token, hcompound, hreads⟩ := h
  exact ⟨[token], hcompound [] [] Simples.nil, hreads⟩

theorem nthChild (h : SpelledType simple text) {position : Nat} (hposition : position < 2147483648) :
    SpelledCompound [simple, .nthChild (.single position)]
      (text ++ writtenFunction "nth-child" (Nat.toDigits 10 position)) := by
  obtain ⟨token, hcompound, hreads⟩ := h
  refine ⟨_, hcompound _ _ (simples_nthChild hposition), fun rest _ => ?_⟩
  have hends : EndsName (writtenFunction "nth-child" (Nat.toDigits 10 position) ++ rest) :=
    endsName_cons (by decide) (by decide) (by decide) _
  rw [List.append_assoc]
  exact (hreads _ hends).append (reads_nthChild position rest)

end SpelledType

/-- An escaped `id` is read as the text that its characters are read back as. -/
theorem spelledCompound_id {value : String} (h : value ≠ "") :
    SpelledCompound [.id (Identifier.readBackText value)]
      ('#' :: (Identifier.escape value).toList) := by
  have hne : value.toList ≠ [] := mt String.toList_eq_nil_iff.mp h
  have hsimples : Simples ([.hash (Identifier.readBackText value) true] ++ [])
      [.id (Identifier.readBackText value)] := Simples.cons (Simple.id _) Simples.nil
  refine ⟨_, Compound.simples hsimples (by simp), fun rest hrest => ?_⟩
  have hread := reads_hash hne hrest
  simpa [Identifier.escape, Identifier.readBackText] using hread

end DomQuery
