import DomQuery.Selector.Basic
import DomQuery.Selector.Lexer.Tokens

/-!
# From tokens to selectors

Each reader takes the tokens at hand and returns what it has read together with the tokens
after it, or the cause for which they are no selector.  Whitespace between two compounds is
the descendant combinator; around any other combinator, around commas and inside brackets it
counts for nothing.  A list inside a functional pseudo-class is *nested*: it ends at the
closing parenthesis.

The readers that call each other carry a step count, which `SelectorList.ofTokens` sets high
enough for the tokens that it is given: every step either takes a token or moves on to a
reader further down in the order list, complex selector, compound, simple selectors.
-/

namespace DomQuery.Parser

/-- The tokens without the whitespace at their beginning. -/
def skipSpace (tokens : List Token) : List Token :=
  tokens.dropWhile (· == .whitespace)

/-- Refuses a token where it stands. -/
def unexpected {α : Type} (token : Token) : Except SelectorError α :=
  .error (.unexpected token.text)

/-! ### Attribute selectors -/

/-- Reads the rest of an attribute selector after its comparison. -/
def attributeValue (name : String) (op : AttributeOp) (tokens : List Token) :
    Except SelectorError (SimpleSelector × List Token) :=
  let close (value : String) (rest : List Token) :
      Except SelectorError (SimpleSelector × List Token) :=
    match skipSpace rest with
    | .rightBracket :: rest => .ok (.hasAttribute name (some (op, value)), rest)
    | token :: _ => unexpected token
    | [] => .error (.unterminated .attributeSelector)
  match skipSpace tokens with
  | .ident value :: rest => close value rest
  | .string value :: rest => close value rest
  | token :: _ => unexpected token
  | [] => .error (.unterminated .attributeSelector)

/-- Reads the rest of an attribute selector after the name of the attribute. -/
def attributeTest (name : String) (tokens : List Token) :
    Except SelectorError (SimpleSelector × List Token) :=
  match skipSpace tokens with
  | .rightBracket :: rest => .ok (.hasAttribute name none, rest)
  | .delim '=' :: rest => attributeValue name .equals rest
  | .delim c :: rest =>
      match AttributeOp.ofSign? c, rest with
      | some op, .delim '=' :: rest => attributeValue name op rest
      | _, _ => unexpected (.delim c)
  | token :: _ => unexpected token
  | [] => .error (.unterminated .attributeSelector)

/-- Reads an attribute selector after its opening bracket. -/
def bracketed (tokens : List Token) :
    Except SelectorError (SimpleSelector × List Token) :=
  match skipSpace tokens with
  | .ident name :: rest => attributeTest name rest
  | token :: _ => unexpected token
  | [] => .error (.unterminated .attributeSelector)

/-! ### Pseudo-classes and pseudo-elements -/

/-- Whether the token can be part of a text of the form `an+b`. -/
def isNthPart : Token → Bool
  | .ident _ => true
  | .number _ => true
  | .dimension _ _ => true
  | .delim c => c == '+' || c == '-'
  | .whitespace => true
  | _ => false

/-- Reads the argument of a positional pseudo-class up to the closing parenthesis: the text
that its tokens make up. -/
def nthText : List Token → Except SelectorError (String × List Token)
  | [] => .error (.unterminated .nthArgument)
  | .rightParen :: rest => .ok ("", rest)
  | token :: rest =>
      if isNthPart token then
        (nthText rest).map fun read => (token.text ++ read.1, read.2)
      else unexpected token

/-- Reads the argument of a positional pseudo-class. -/
def nth (pseudo : AnPlusB → SimpleSelector) (tokens : List Token) :
    Except SelectorError (SimpleSelector × List Token) := do
  let (text, rest) ← nthText tokens
  let positions ← AnPlusB.ofText text
  pure (pseudo positions, rest)

/-- The positional pseudo-class with the given name. -/
def positional? (name : String) : Option (AnPlusB → SimpleSelector) :=
  if name = "nth-child" then some .nthChild
  else if name = "nth-last-child" then some .nthLastChild
  else none

/-- The logical pseudo-class with the given name. -/
def logical? (name : String) : Option (SelectorList → SimpleSelector) :=
  if name = "not" then some .notAny
  else if name = "is" ∨ name = "matches" then some .isAny
  else if name = "where" then some .whereAny
  else none

/-- Reads what follows a colon, functional pseudo-classes apart.  A pseudo-element can also be
written with a single colon. -/
def plainPseudo : List Token → Except SelectorError (SimpleSelector × List Token)
  | .colon :: .ident name :: rest =>
      match PseudoElement.ofName? name with
      | some pseudo => .ok (.pseudoElement pseudo, rest)
      | none => .error (.unknownPseudoElement name)
  | .colon :: token :: _ => unexpected token
  | [.colon] => .error (.unexpected "::")
  | .ident name :: rest =>
      let name := Text.lowercase name
      match PseudoElement.ofName? name, PseudoClass.ofName? name with
      | some pseudo, _ => .ok (.pseudoElement pseudo, rest)
      | none, some pseudo => .ok (.pseudoClass pseudo, rest)
      | none, none => .error (.unknownPseudoClass name)
  | token :: _ => unexpected token
  | [] => unexpected .colon

/-! ### Between compounds -/

/-- The combinator that the token writes. -/
def combinator? : Token → Option Combinator
  | .delim c => Combinator.ofSign? c
  | _ => none

/-- Reads what stands between two compounds: the combinator, or nothing where the complex
selector ends. -/
def joint (nested : Bool) (tokens : List Token) :
    Except SelectorError (Option (Combinator × List Token)) :=
  match skipSpace tokens with
  | [] => .ok none
  | token :: rest =>
      if token = .comma ∨ (nested = true ∧ token = .rightParen) then .ok none
      else
        match combinator? token with
        | some combinator => .ok (some (combinator, skipSpace rest))
        | none =>
            if tokens.head? = some .whitespace then .ok (some (.descendant, token :: rest))
            else unexpected token

/-- The cause for a complex selector that does not begin with a compound. -/
def missingFirst : List Token → SelectorError
  | [] => .empty
  | token :: _ =>
      match combinator? token with
      | some combinator => .danglingCombinator combinator
      | none =>
          if token = .comma ∨ token = .rightParen then .empty else .unexpected token.text

/-- The cause for a combinator without a compound on its right. -/
def missingNext : Combinator → List Token → SelectorError
  | .descendant, [] => .empty
  | .descendant, token :: _ => .unexpected token.text
  | combinator, _ => .danglingCombinator combinator

/-! ### Selectors -/

mutual

/-- Reads complex selectors with commas between them. -/
def list (nested : Bool) : Nat → List Token → Except SelectorError (SelectorList × List Token)
  | 0, _ => .error .empty
  | steps + 1, tokens => do
      let (first, rest) ← complex nested steps (skipSpace tokens)
      match skipSpace rest with
      | [] => pure ([first], [])
      | token :: rest =>
          if token = .comma then
            let (others, rest) ← list nested steps rest
            pure (first :: others, rest)
          else if nested = true ∧ token = .rightParen then pure ([first], token :: rest)
          else unexpected token

/-- Reads a complex selector. -/
def complex (nested : Bool) :
    Nat → List Token → Except SelectorError (ComplexSelector × List Token)
  | 0, _ => .error .empty
  | steps + 1, tokens => do
      let (simples, rest) ← compound steps tokens
      if simples.isEmpty then .error (missingFirst rest)
      else chain nested steps (.compound simples) rest

/-- Reads the rest of a complex selector, given the part on its left. -/
def chain (nested : Bool) :
    Nat → ComplexSelector → List Token → Except SelectorError (ComplexSelector × List Token)
  | 0, _, _ => .error .empty
  | steps + 1, left, tokens => do
      match ← joint nested tokens with
      | none => pure (left, tokens)
      | some (combinator, rest) =>
          let (simples, rest) ← compound steps rest
          if simples.isEmpty then .error (missingNext combinator rest)
          else chain nested steps (.combined left combinator simples) rest

/-- Reads a compound, which is empty where no simple selector follows. -/
def compound : Nat → List Token → Except SelectorError (List SimpleSelector × List Token)
  | 0, _ => .error .empty
  | steps + 1, .ident name :: rest => do
      let (others, rest) ← simples steps rest
      pure (.tag (Text.lowercase name) :: others, rest)
  | steps + 1, .delim '*' :: rest => do
      let (others, rest) ← simples steps rest
      pure (.universal :: others, rest)
  | steps + 1, tokens => simples steps tokens

/-- Reads the simple selectors of a compound after the tag name. -/
def simples : Nat → List Token → Except SelectorError (List SimpleSelector × List Token)
  | 0, _ => .error .empty
  | _ + 1, .hash value false :: _ => .error (.invalidId value)
  | steps + 1, .hash value true :: rest => do
      let (others, rest) ← simples steps rest
      pure (.id value :: others, rest)
  | steps + 1, .delim '.' :: .ident name :: rest => do
      let (others, rest) ← simples steps rest
      pure (.className name :: others, rest)
  | _ + 1, .delim '.' :: token :: _ => unexpected token
  | _ + 1, [.delim '.'] => unexpected (.delim '.')
  | steps + 1, .leftBracket :: rest => do
      let (first, rest) ← bracketed rest
      let (others, rest) ← simples steps rest
      pure (first :: others, rest)
  | steps + 1, .colon :: rest => do
      let (first, rest) ← pseudo steps rest
      let (others, rest) ← simples steps rest
      pure (first :: others, rest)
  | _ + 1, tokens => pure ([], tokens)

/-- Reads what follows a colon. -/
def pseudo : Nat → List Token → Except SelectorError (SimpleSelector × List Token)
  | 0, _ => .error .empty
  | steps + 1, .function name :: rest =>
      let name := Text.lowercase name
      match positional? name, logical? name with
      | some make, _ => nth make rest
      | none, some make => do
          let (selectors, rest) ← list true steps rest
          match rest with
          | .rightParen :: rest => pure (make selectors, rest)
          | _ => .error (.unterminated .functionalPseudoClass)
      | none, none => .error (.unknownPseudoClass name)
  | _ + 1, tokens => plainPseudo tokens

end

end DomQuery.Parser

namespace DomQuery

/-- The selectors that the tokens make up, or the cause for which they make up none. -/
def SelectorList.ofTokens (tokens : List Token) : Except SelectorError SelectorList := do
  let (selectors, rest) ← Parser.list false (3 * tokens.length + 4) tokens
  match rest with
  | [] => pure selectors
  | token :: _ => Parser.unexpected token

/-- The selectors that a text writes, or the cause for which it writes none. -/
def SelectorList.ofText (text : String) : Except SelectorError SelectorList := do
  SelectorList.ofTokens (← Token.ofText text)

end DomQuery
