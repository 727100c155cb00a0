import DomQuery.Proofs.Selector.Parsing
import DomQuery.Proofs.Selector.Written

/-!
# Rendering and reading

The written form of a well-shaped list of selectors is read as the tokens that it was written
for (`reads_alternatives`), and these derive the list (`alternatives_alternativesTokens`), so the list is
read back (`SelectorList.ofText_render`).

Both inductions follow the structure of the selectors.  The readings carry a condition on the
text behind: it must end a name.  Inside a selector this holds because everything that follows a
name there is a sign of its own.
-/

namespace DomQuery

open Lexer Identifier

/-! ### Names and keywords -/

theorem Identifier.toList_ne_nil {name : String} (h : isWritable name = true) :
    name.toList ≠ [] := by
  simp only [isWritable, Bool.and_eq_true, bne_iff_ne] at h
  intro hnil
  exact h.1 (String.toList_eq_nil_iff.mp hnil)

theorem Identifier.ofList_map_readBack {name : String} (h : '\x00' ∉ name.toList) :
    String.ofList (name.toList.map readBack) = name := by
  rw [map_readBack h, String.ofList_toList]

theorem Identifier.null_not_mem {name : String} (h : isWritable name = true) :
    '\x00' ∉ name.toList := by
  simp only [isWritable, Bool.and_eq_true, Bool.not_eq_true', List.contains_eq_mem,
    decide_eq_false_iff_not] at h
  exact h.2

/-- A name that needs no escapes. -/
def Identifier.IsKeyword (name : String) : Prop :=
  isWritable name = true ∧ escapeChars name.toList = name.toList

theorem isKeyword_pseudoClass (pseudo : PseudoClass) : IsKeyword pseudo.name := by
  cases pseudo <;> exact ⟨by decide, by decide⟩

theorem isKeyword_pseudoElement (pseudo : PseudoElement) : IsKeyword pseudo.name := by
  cases pseudo <;> exact ⟨by decide, by decide⟩

namespace Lexer

theorem endsName_cons {c : Char} (hname : isNameChar c = false) (hbackslash : c ≠ '\\')
    (hparen : c ≠ '(') (rest : List Char) : EndsName (c :: rest) := by
  rintro d hd
  cases hd
  exact ⟨hname, hbackslash, hparen⟩

theorem reads_escape {name : String} {rest : List Char} (h : isWritable name = true)
    (hrest : EndsName rest) : Reads ((Identifier.escape name).toList ++ rest) [.ident name] rest := by
  have hread := reads_ident (toList_ne_nil h) hrest
  rwa [ofList_map_readBack (null_not_mem h), ← String.toList_ofList (l := escapeChars _)] at hread

theorem reads_keyword {name : String} {rest : List Char} (h : IsKeyword name)
    (hrest : EndsName rest) : Reads (name.toList ++ rest) [.ident name] rest := by
  have hread := reads_ident (toList_ne_nil h.1) hrest
  rwa [ofList_map_readBack (null_not_mem h.1), h.2] at hread

/-- What stands in front of the argument of a functional pseudo-class. -/
theorem reads_functionHead {name : String} (h : IsKeyword name) (rest : List Char) :
    Reads (':' :: (name.toList ++ '(' :: rest)) [.colon, .function name] rest := by
  have hname := @reads_function name.toList rest (toList_ne_nil h.1)
  rw [ofList_map_readBack (null_not_mem h.1), h.2] at hname
  have hcolon : Reads (':' :: (name.toList ++ '(' :: rest)) [.colon]
      (name.toList ++ '(' :: rest) := reads_punctuation (by decide) rfl
  exact hcolon.append hname

/-- A functional pseudo-class is read around the reading of its argument. -/
theorem reads_writtenFunction {name : String} {argument rest : List Char} {tokens : List Token}
    (h : IsKeyword name) (hargument : Reads (argument ++ ')' :: rest) tokens (')' :: rest)) :
    Reads (writtenFunction name argument ++ rest) (writtenFunctionTokens name tokens) rest := by
  have hparen : Reads (')' :: rest) [.rightParen] rest := reads_punctuation (by decide) rfl
  have hall := (reads_functionHead h (argument ++ ')' :: rest)).append (hargument.append hparen)
  simpa [writtenFunction, writtenFunctionTokens] using hall

theorem reads_comparison (op : AttributeOp) (rest : List Char) :
    Reads (op.written ++ rest) (Grammar.comparison op) rest := by
  have hequals : Reads ('=' :: rest) [.delim '='] rest := reads_punctuation (by decide) rfl
  have hsign : ∀ c, c ∈ ['~', '|', '^', '$', '*'] →
      Reads (c :: '=' :: rest) [.delim c, .delim '='] rest := by
    intro c hc
    simp only [List.mem_cons, List.not_mem_nil, or_false] at hc
    rcases hc with rfl | rfl | rfl | rfl | rfl <;>
      exact (reads_punctuation (by decide) rfl).append hequals
  unfold AttributeOp.written Grammar.comparison
  cases op <;> first | exact hequals | exact hsign _ (by decide)

theorem endsName_comparison (op : AttributeOp) (rest : List Char) :
    EndsName (op.written ++ rest) := by
  obtain ⟨c, more, heq, hc⟩ : ∃ c more, op.written = c :: more ∧
      c ∈ ['=', '~', '|', '^', '$', '*'] := by
    cases op <;> exact ⟨_, _, rfl, by decide⟩
  rw [heq]
  simp only [List.mem_cons, List.not_mem_nil, or_false] at hc
  rcases hc with rfl | rfl | rfl | rfl | rfl | rfl <;>
    exact endsName_cons (by decide) (by decide) (by decide) _

theorem reads_writtenValue {value : String} {rest : List Char} (h : '\x00' ∉ value.toList) :
    Reads (writtenValue value ++ ']' :: rest) [writtenValueToken value] (']' :: rest) := by
  unfold writtenValue writtenValueToken
  split
  · exact reads_emptyString
  · next hne =>
      have hwritable : isWritable value = true := by simp [isWritable, hne, h]
      exact reads_escape hwritable (endsName_cons (by decide) (by decide) (by decide) _)

end Lexer

/-! ### Reading written selectors -/

/-- A simple selector that can follow others begins with a sign. -/
theorem SimpleSelector.exists_sign {simple : SimpleSelector} (h : simple.isLeading = false) :
    ∃ c more, simple.written = c :: more ∧ c ∈ ['#', '.', '[', ':'] := by
  cases simple with
  | tag name => exact absurd h (by simp [isLeading])
  | universal => exact absurd h (by simp [isLeading])
  | hasAttribute name test =>
      cases test with
      | none => exact ⟨_, _, by rw [written], by decide⟩
      | some test => exact ⟨_, _, by rw [written], by decide⟩
  | id value => exact ⟨_, _, by rw [written], by decide⟩
  | className value => exact ⟨_, _, by rw [written], by decide⟩
  | pseudoClass pseudo => exact ⟨_, _, by rw [written], by decide⟩
  | nthChild positions => exact ⟨_, _, by rw [written, writtenFunction], by decide⟩
  | nthLastChild positions => exact ⟨_, _, by rw [written, writtenFunction], by decide⟩
  | notAny selectors => exact ⟨_, _, by rw [written, writtenFunction], by decide⟩
  | isAny selectors => exact ⟨_, _, by rw [written, writtenFunction], by decide⟩
  | whereAny selectors => exact ⟨_, _, by rw [written, writtenFunction], by decide⟩
  | pseudoElement pseudo => exact ⟨_, _, by rw [written], by decide⟩

theorem SimpleSelector.exists_head {simple : SimpleSelector} (h : simple.isWellShaped = true)
    (rest : List Char) : ∃ c more, simple.written ++ rest = c :: more ∧ isSpace c = false := by
  cases hleading : simple.isLeading with
  | false =>
      obtain ⟨c, more, heq, hc⟩ := exists_sign hleading
      refine ⟨c, more ++ rest, by rw [heq, List.cons_append], ?_⟩
      simp only [List.mem_cons, List.not_mem_nil, or_false] at hc
      rcases hc with rfl | rfl | rfl | rfl <;> decide
  | true =>
      cases simple with
      | tag name =>
          simp only [isWellShaped, Bool.and_eq_true] at h
          obtain ⟨c, more, heq, hspace, -⟩ :=
            exists_head_of_startsName (startsName_escapeChars (toList_ne_nil h.1) rest)
          exact ⟨c, more, by rw [written, Identifier.escape, String.toList_ofList, heq], hspace⟩
      | universal => exact ⟨_, _, by rw [written, List.cons_append], by decide⟩
      | _ => exact absurd hleading (by simp [isLeading])

/-- What can follow in a compound ends the name in front of it. -/
theorem endsName_writtenCompound {simples : List SimpleSelector} {rest : List Char}
    (h : canFollow simples = true) (hrest : EndsName rest) :
    EndsName (writtenCompound simples ++ rest) := by
  cases simples with
  | nil => rwa [writtenCompound]
  | cons simple simples =>
      simp only [canFollow, Bool.and_eq_true, Bool.not_eq_true'] at h
      obtain ⟨c, more, heq, hc⟩ := SimpleSelector.exists_sign h.1.1
      rw [writtenCompound, heq, List.append_assoc, List.cons_append]
      simp only [List.mem_cons, List.not_mem_nil, or_false] at hc
      rcases hc with rfl | rfl | rfl | rfl <;>
        exact endsName_cons (by decide) (by decide) (by decide) _

theorem exists_head_writtenCompound {simples : List SimpleSelector}
    (h : isWellShapedCompound simples = true) (rest : List Char) :
    ∃ c more, writtenCompound simples ++ rest = c :: more ∧ isSpace c = false := by
  cases simples with
  | nil => exact absurd h (by simp [isWellShapedCompound])
  | cons simple simples =>
      simp only [isWellShapedCompound, Bool.and_eq_true] at h
      rw [writtenCompound, List.append_assoc]
      exact SimpleSelector.exists_head h.1 _

theorem reads_combinator {simples : List SimpleSelector} (combinator : Combinator)
    (h : isWellShapedCompound simples = true) (rest : List Char) :
    Reads (combinator.written ++ (writtenCompound simples ++ rest)) combinator.writtenTokens
      (writtenCompound simples ++ rest) := by
  have hlast : Reads (' ' :: (writtenCompound simples ++ rest)) [.whitespace]
      (writtenCompound simples ++ rest) := by
    obtain ⟨c, more, heq, hspace⟩ := exists_head_writtenCompound h rest
    refine reads_space fun d hd => ?_
    rw [heq] at hd
    cases hd
    exact hspace
  have hsign : ∀ c, c ∈ ['>', '+', '~'] →
      Reads (' ' :: c :: ' ' :: (writtenCompound simples ++ rest))
        [.whitespace, .delim c, .whitespace] (writtenCompound simples ++ rest) := by
    intro c hc
    simp only [List.mem_cons, List.not_mem_nil, or_false] at hc
    have hfirst : ∀ text : List Char, Reads (' ' :: c :: text) [.whitespace] (c :: text) := by
      intro text
      refine reads_space fun d hd => ?_
      cases hd
      rcases hc with rfl | rfl | rfl <;> decide
    have hsecond : ∀ text : List Char, Reads (c :: ' ' :: text) [.delim c] (' ' :: text) := by
      intro text
      rcases hc with rfl | rfl | rfl <;> exact reads_punctuation (by decide) rfl
    exact (hfirst _).append ((hsecond _).append hlast)
  cases combinator with
  | descendant => exact hlast
  | _ => exact hsign _ (by decide)

theorem endsName_combinator (combinator : Combinator) (rest : List Char) :
    EndsName (combinator.written ++ rest) := by
  cases combinator <;> exact endsName_cons (c := ' ') (by decide) (by decide) (by decide) _

theorem endsName_paren (rest : List Char) : EndsName (')' :: rest) :=
  endsName_cons (by decide) (by decide) (by decide) rest

theorem reads_className {value : String} {rest : List Char} (h : isWritable value = true)
    (hrest : EndsName rest) :
    Reads ('.' :: ((Identifier.escape value).toList ++ rest)) [.delim '.', .ident value] rest := by
  have hread := reads_point (toList_ne_nil h) hrest
  rwa [ofList_map_readBack (null_not_mem h), ← String.toList_ofList (l := escapeChars _)] at hread

theorem reads_bracketed {name : String} {test rest : List Char} {tokens : List Token}
    (h : isWritable name = true) (hends : EndsName (test ++ ']' :: rest))
    (htest : Reads (test ++ ']' :: rest) tokens (']' :: rest)) :
    Reads ('[' :: ((Identifier.escape name).toList ++ (test ++ [']'])) ++ rest)
      (.leftBracket :: .ident name :: (tokens ++ [.rightBracket])) rest := by
  have hopen : ∀ text, Reads ('[' :: text) [.leftBracket] text :=
    fun text => reads_punctuation (by decide) rfl
  have hclose : Reads (']' :: rest) [.rightBracket] rest := reads_punctuation (by decide) rfl
  have hall := (hopen _).append ((reads_escape h hends).append (htest.append hclose))
  simpa using hall

mutual

/-- A simple selector is read as its tokens. -/
theorem SimpleSelector.reads : ∀ {simple : SimpleSelector}, simple.isWellShaped = true →
    ∀ {rest : List Char}, EndsName rest → Reads (simple.written ++ rest) simple.writtenTokens rest
  | .tag name, h, rest, hrest => by
      simp only [SimpleSelector.isWellShaped, Bool.and_eq_true] at h
      rw [SimpleSelector.written, SimpleSelector.writtenTokens]
      exact reads_escape h.1 hrest
  | .universal, _, rest, _ => by
      rw [SimpleSelector.written, SimpleSelector.writtenTokens]
      exact reads_punctuation (by decide) rfl
  | .id value, h, rest, hrest => by
      rw [SimpleSelector.isWellShaped] at h
      have hread := reads_hash (toList_ne_nil h) hrest
      rw [ofList_map_readBack (null_not_mem h)] at hread
      rwa [SimpleSelector.written, SimpleSelector.writtenTokens, List.cons_append,
        Identifier.escape, String.toList_ofList]
  | .className value, h, rest, hrest => by
      rw [SimpleSelector.isWellShaped] at h
      rw [SimpleSelector.written, SimpleSelector.writtenTokens]
      exact reads_className h hrest
  | .hasAttribute name none, h, rest, hrest => by
      rw [SimpleSelector.isWellShaped] at h
      rw [SimpleSelector.written, SimpleSelector.writtenTokens]
      exact @reads_bracketed name [] rest [] h
        (endsName_cons (by decide) (by decide) (by decide) _) Reads.done
  | .hasAttribute name (some (op, value)), h, rest, hrest => by
      simp only [SimpleSelector.isWellShaped, Bool.and_eq_true, Bool.not_eq_true',
        List.contains_eq_mem, decide_eq_false_iff_not] at h
      -- the operator ends the name, and the value stands in quotes
      have htest := (reads_comparison op (writtenValue value ++ ']' :: rest)).append
        (reads_writtenValue h.2)
      rw [← List.append_assoc] at htest
      have hends := endsName_comparison op (writtenValue value ++ ']' :: rest)
      rw [← List.append_assoc] at hends
      simpa [SimpleSelector.written, SimpleSelector.writtenTokens] using
        reads_bracketed h.1 hends htest
  | .pseudoClass pseudo, _, rest, hrest => by
      have hcolon : Reads (':' :: (pseudo.name.toList ++ rest)) [.colon]
          (pseudo.name.toList ++ rest) := reads_punctuation (by decide) rfl
      rw [SimpleSelector.written, SimpleSelector.writtenTokens]
      exact hcolon.append (reads_keyword (isKeyword_pseudoClass pseudo) hrest)
  | .nthChild positions, _, rest, _ => by
      rw [SimpleSelector.written, SimpleSelector.writtenTokens]
      exact reads_writtenFunction ⟨by decide, by decide⟩ (reads_written positions rest)
  | .nthLastChild positions, _, rest, _ => by
      rw [SimpleSelector.written, SimpleSelector.writtenTokens]
      exact reads_writtenFunction ⟨by decide, by decide⟩ (reads_written positions rest)
  | .notAny selectors, h, rest, _ => by
      simp only [SimpleSelector.isWellShaped, Bool.and_eq_true] at h
      rw [SimpleSelector.written, SimpleSelector.writtenTokens]
      exact reads_writtenFunction ⟨by decide, by decide⟩
        (reads_alternatives h.2 (endsName_paren rest))
  | .isAny selectors, h, rest, _ => by
      simp only [SimpleSelector.isWellShaped, Bool.and_eq_true] at h
      rw [SimpleSelector.written, SimpleSelector.writtenTokens]
      exact reads_writtenFunction ⟨by decide, by decide⟩
        (reads_alternatives h.2 (endsName_paren rest))
  | .whereAny selectors, h, rest, _ => by
      simp only [SimpleSelector.isWellShaped, Bool.and_eq_true] at h
      rw [SimpleSelector.written, SimpleSelector.writtenTokens]
      exact reads_writtenFunction ⟨by decide, by decide⟩
        (reads_alternatives h.2 (endsName_paren rest))
  | .pseudoElement pseudo, _, rest, hrest => by
      have hcolon : ∀ text, Reads (':' :: text) [.colon] text :=
        fun text => reads_punctuation (by decide) rfl
      rw [SimpleSelector.written, SimpleSelector.writtenTokens]
      exact (hcolon _).append ((hcolon _).append
        (reads_keyword (isKeyword_pseudoElement pseudo) hrest))

theorem reads_followers : ∀ {simples : List SimpleSelector}, canFollow simples = true →
    ∀ {rest : List Char}, EndsName rest →
      Reads (writtenCompound simples ++ rest) (compoundTokens simples) rest
  | [], _, rest, _ => by
      rw [writtenCompound, compoundTokens]
      exact Reads.done
  | simple :: simples, h, rest, hrest => by
      simp only [canFollow, Bool.and_eq_true] at h
      rw [writtenCompound, compoundTokens, List.append_assoc]
      exact (SimpleSelector.reads h.1.2 (endsName_writtenCompound h.2 hrest)).append
        (reads_followers h.2 hrest)

theorem reads_compound : ∀ {simples : List SimpleSelector}, isWellShapedCompound simples = true →
    ∀ {rest : List Char}, EndsName rest →
      Reads (writtenCompound simples ++ rest) (compoundTokens simples) rest
  | [], h, _, _ => absurd h (by simp [isWellShapedCompound])
  | simple :: simples, h, rest, hrest => by
      simp only [isWellShapedCompound, Bool.and_eq_true] at h
      rw [writtenCompound, compoundTokens, List.append_assoc]
      exact (SimpleSelector.reads h.1 (endsName_writtenCompound h.2 hrest)).append
        (reads_followers h.2 hrest)

/-- A complex selector is read as its tokens. -/
theorem ComplexSelector.reads : ∀ {selector : ComplexSelector}, selector.isWellShaped = true →
    ∀ {rest : List Char}, EndsName rest →
      Reads (selector.written ++ rest) selector.writtenTokens rest
  | .compound simples, h, rest, hrest => by
      rw [ComplexSelector.isWellShaped] at h
      rw [ComplexSelector.written, ComplexSelector.writtenTokens]
      exact reads_compound h hrest
  | .combined left combinator simples, h, rest, hrest => by
      simp only [ComplexSelector.isWellShaped, Bool.and_eq_true] at h
      rw [ComplexSelector.written, ComplexSelector.writtenTokens, List.append_assoc,
        List.append_assoc]
      exact (ComplexSelector.reads h.1 (endsName_combinator combinator _)).append
        ((reads_combinator combinator h.2 rest).append (reads_compound h.2 hrest))

/-- Alternatives are read as their tokens. -/
theorem reads_alternatives : ∀ {selectors : List ComplexSelector}, areWellShaped selectors = true →
    ∀ {rest : List Char}, EndsName rest →
      Reads (writtenAlternatives selectors ++ rest) (alternativesTokens selectors) rest
  | [], _, rest, _ => by
      rw [writtenAlternatives, alternativesTokens]
      exact Reads.done
  | [selector], h, rest, hrest => by
      simp only [areWellShaped, Bool.and_eq_true] at h
      rw [writtenAlternatives, alternativesTokens]
      exact ComplexSelector.reads h.1 hrest
  | selector :: next :: selectors, h, rest, hrest => by
      rw [areWellShaped, Bool.and_eq_true] at h
      have hcomma : ∀ text, Reads (',' :: text) [.comma] text :=
        fun text => reads_punctuation (by decide) rfl
      have hfirst := ComplexSelector.reads h.1 (endsName_cons (c := ',') (by decide) (by decide)
        (by decide) (writtenAlternatives (next :: selectors) ++ rest))
      have hall := hfirst.append ((hcomma _).append (reads_alternatives h.2 hrest))
      simpa [writtenAlternatives, alternativesTokens] using hall

end

/-! ### Deriving written selectors -/

namespace Grammar

theorem joint_writtenTokens (combinator : Combinator) :
    Joint combinator.writtenTokens combinator := by
  have hsign : ∀ c, Combinator.ofSign? c = some combinator →
      Joint [.whitespace, .delim c, .whitespace] combinator :=
    fun c hc => @Joint.sign [.whitespace] [.whitespace] c combinator Space.single Space.single hc
  cases combinator with
  | descendant => exact Joint.descendant Space.single (List.cons_ne_nil _ _)
  | child => exact hsign '>' (by decide)
  | nextSibling => exact hsign '+' (by decide)
  | subsequentSibling => exact hsign '~' (by decide)

theorem value_writtenValueToken (value : String) : Value (writtenValueToken value) value := by
  unfold writtenValueToken
  split
  · next hempty =>
      subst hempty
      exact Value.string ""
  · exact Value.ident value

theorem lowercase_nthChild : Text.lowercase "nth-child" = "nth-child" := by decide

theorem lowercase_nthLastChild : Text.lowercase "nth-last-child" = "nth-last-child" := by decide

theorem lowercase_not : Text.lowercase "not" = "not" := by decide

theorem lowercase_is : Text.lowercase "is" = "is" := by decide

theorem lowercase_where : Text.lowercase "where" = "where" := by decide

/-- The tokens of a positional pseudo-class derive it. -/
theorem simple_nth {name : String} {make : AnPlusB → SimpleSelector}
    (h : Parser.positional? (Text.lowercase name) = some make) (positions : AnPlusB) :
    Simple (writtenFunctionTokens name positions.writtenTokens) (make positions) := by
  refine Simple.nth h (fun token hmem => AnPlusB.isNthPart_writtenTokens hmem) ?_ rfl
  rw [AnPlusB.argument_writtenTokens, AnPlusB.ofText_written]

mutual

theorem simple_writtenTokens : ∀ {simple : SimpleSelector}, simple.isWellShaped = true →
    simple.isLeading = false → Simple simple.writtenTokens simple
  | .tag name, _, hleading => absurd hleading (by simp [SimpleSelector.isLeading])
  | .universal, _, hleading => absurd hleading (by simp [SimpleSelector.isLeading])
  | .id value, _, _ => by
      rw [SimpleSelector.writtenTokens]
      exact Simple.id value
  | .className value, _, _ => by
      rw [SimpleSelector.writtenTokens]
      exact Simple.className value
  | .hasAttribute name none, _, _ => by
      rw [SimpleSelector.writtenTokens]
      exact Simple.bracket (@Bracketed.bare [] [] name Space.nil Space.nil)
  | .hasAttribute name (some (op, value)), _, _ => by
      rw [SimpleSelector.writtenTokens]
      exact Simple.bracket (@Bracketed.test [] [] [] [] name value op _ Space.nil Space.nil
        Space.nil Space.nil (value_writtenValueToken value))
  | .pseudoClass pseudo, _, _ => by
      rw [SimpleSelector.writtenTokens]
      refine Simple.plain (Plain.state ?_ ?_) <;> cases pseudo <;> decide
  | .nthChild positions, _, _ => by
      rw [SimpleSelector.writtenTokens]
      exact simple_nth (by simp [lowercase_nthChild, Parser.positional?]) positions
  | .nthLastChild positions, _, _ => by
      rw [SimpleSelector.writtenTokens]
      exact simple_nth (by simp [lowercase_nthLastChild, Parser.positional?]) positions
  | .notAny selectors, h, _ => by
      simp only [SimpleSelector.isWellShaped, Bool.and_eq_true, Bool.not_eq_true'] at h
      rw [SimpleSelector.writtenTokens]
      exact Simple.logical (by simp [lowercase_not, Parser.logical?])
        (alternatives_alternativesTokens h.2 (by simpa using h.1)) rfl
  | .isAny selectors, h, _ => by
      simp only [SimpleSelector.isWellShaped, Bool.and_eq_true, Bool.not_eq_true'] at h
      rw [SimpleSelector.writtenTokens]
      exact Simple.logical (by simp [lowercase_is, Parser.logical?])
        (alternatives_alternativesTokens h.2 (by simpa using h.1)) rfl
  | .whereAny selectors, h, _ => by
      simp only [SimpleSelector.isWellShaped, Bool.and_eq_true, Bool.not_eq_true'] at h
      rw [SimpleSelector.writtenTokens]
      exact Simple.logical (by simp [lowercase_where, Parser.logical?])
        (alternatives_alternativesTokens h.2 (by simpa using h.1)) rfl
  | .pseudoElement pseudo, _, _ => by
      rw [SimpleSelector.writtenTokens]
      refine Simple.plain (Plain.element ?_)
      cases pseudo <;> decide

theorem simples_compoundTokens : ∀ {simples : List SimpleSelector}, canFollow simples = true →
    Simples (compoundTokens simples) simples
  | [], _ => by
      rw [compoundTokens]
      exact Simples.nil
  | simple :: simples, h => by
      simp only [canFollow, Bool.and_eq_true, Bool.not_eq_true'] at h
      rw [compoundTokens]
      exact Simples.cons (simple_writtenTokens h.1.2 h.1.1) (simples_compoundTokens h.2)

theorem compound_compoundTokens : ∀ {simples : List SimpleSelector},
    isWellShapedCompound simples = true → Compound (compoundTokens simples) simples
  | [], h => absurd h (by simp [isWellShapedCompound])
  | simple :: simples, h => by
      simp only [isWellShapedCompound, Bool.and_eq_true] at h
      have hrest := simples_compoundTokens h.2
      rw [compoundTokens]
      cases hleading : simple.isLeading with
      | false =>
          exact Compound.simples (Simples.cons (simple_writtenTokens h.1 hleading) hrest)
            (List.cons_ne_nil _ _)
      | true =>
          cases simple with
          | tag name =>
              simp only [SimpleSelector.isWellShaped, Bool.and_eq_true, beq_iff_eq] at h
              have hcompound := @Compound.tag name _ _ hrest
              rw [h.1.2] at hcompound
              rwa [SimpleSelector.writtenTokens]
          | universal =>
              rw [SimpleSelector.writtenTokens]
              exact Compound.universal hrest
          | _ => exact absurd hleading (by simp [SimpleSelector.isLeading])

theorem complex_writtenTokens : ∀ {selector : ComplexSelector}, selector.isWellShaped = true →
    Complex selector.writtenTokens selector
  | .compound simples, h => by
      rw [ComplexSelector.isWellShaped] at h
      rw [ComplexSelector.writtenTokens]
      exact Complex.compound (compound_compoundTokens h)
  | .combined left combinator simples, h => by
      simp only [ComplexSelector.isWellShaped, Bool.and_eq_true] at h
      rw [ComplexSelector.writtenTokens]
      exact Complex.combined (complex_writtenTokens h.1) (joint_writtenTokens combinator)
        (compound_compoundTokens h.2)

theorem alternatives_alternativesTokens : ∀ {selectors : List ComplexSelector},
    areWellShaped selectors = true → selectors ≠ [] →
      Alternatives (alternativesTokens selectors) selectors
  | [], _, hne => absurd rfl hne
  | [selector], h, _ => by
      simp only [areWellShaped, Bool.and_eq_true] at h
      have hall := @Alternatives.single [] selector.writtenTokens [] selector Space.nil
        (complex_writtenTokens h.1) Space.nil
      simpa [alternativesTokens] using hall
  | selector :: next :: selectors, h, _ => by
      rw [areWellShaped, Bool.and_eq_true] at h
      have hall := @Alternatives.cons [] selector.writtenTokens [] _ selector _ Space.nil
        (complex_writtenTokens h.1) Space.nil
        (alternatives_alternativesTokens h.2 (by simp))
      simpa [alternativesTokens] using hall

end

end Grammar

/-- A well-shaped list of selectors is read back from its written form. -/
theorem SelectorList.ofText_render {selectors : SelectorList}
    (h : selectors.isWellShaped = true) :
    SelectorList.ofText selectors.render = .ok selectors := by
  simp only [SelectorList.isWellShaped, Bool.and_eq_true, Bool.not_eq_true',
    List.isEmpty_eq_false_iff] at h
  have hends : EndsName [] := by simp [EndsName]
  have hreads := reads_alternatives h.2 hends
  rw [List.append_nil] at hreads
  have hderives := Grammar.alternatives_alternativesTokens h.2 h.1
  rw [SelectorList.ofText, Token.ofText, SelectorList.render, String.toList_ofList,
    hreads.tokens_eq]
  exact SelectorList.ofTokens_eq_ok_iff.mpr hderives

end DomQuery
