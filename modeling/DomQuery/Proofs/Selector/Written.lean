import DomQuery.Proofs.Selector.Positions

/-!
# The written form of selectors

A selector list is written with an escape wherever a name needs one, with one space for the
descendant combinator and a space on either side of any other, and with commas between the
alternatives (`SelectorList.render`).  This text has a meaning only for lists that the parser
could have read: `SelectorList.isWellShaped` says that nothing is empty that must not be, that a
tag name in lower case or the universal selector stands only at the beginning of a compound, and
that no name or value holds U+0000.

The tokens of the written form (`alternativesTokens`) are what the proofs go through: the lexer
reads the text as these tokens, and the tokens derive the list.
-/

namespace DomQuery

open Identifier (escape)

/-! ### Text -/

/-- The comparison in an attribute selector. -/
def AttributeOp.written (op : AttributeOp) : List Char :=
  op.sign?.toList ++ ['=']

/-- The value in an attribute selector. -/
def writtenValue (value : String) : List Char :=
  if value = "" then ['"', '"'] else (escape value).toList

/-- The combinator with the spaces around it. -/
def Combinator.written : Combinator → List Char
  | .descendant => [' ']
  | combinator => [' ', combinator.sign, ' ']

/-- A functional pseudo-class with its argument. -/
def writtenFunction (name : String) (argument : List Char) : List Char :=
  ':' :: (name.toList ++ '(' :: (argument ++ [')']))

mutual

def SimpleSelector.written : SimpleSelector → List Char
  | .tag name => (escape name).toList
  | .universal => ['*']
  | .id value => '#' :: (escape value).toList
  | .className value => '.' :: (escape value).toList
  | .hasAttribute name none => '[' :: ((escape name).toList ++ [']'])
  | .hasAttribute name (some (op, value)) =>
      '[' :: ((escape name).toList ++ (op.written ++ (writtenValue value ++ [']'])))
  | .pseudoClass pseudo => ':' :: pseudo.name.toList
  | .nthChild positions => writtenFunction "nth-child" positions.written
  | .nthLastChild positions => writtenFunction "nth-last-child" positions.written
  | .notAny selectors => writtenFunction "not" (writtenAlternatives selectors)
  | .isAny selectors => writtenFunction "is" (writtenAlternatives selectors)
  | .whereAny selectors => writtenFunction "where" (writtenAlternatives selectors)
  | .pseudoElement pseudo => ':' :: ':' :: pseudo.name.toList

/-- Simple selectors one behind the other. -/
def writtenCompound : List SimpleSelector → List Char
  | [] => []
  | simple :: rest => simple.written ++ writtenCompound rest

def ComplexSelector.written : ComplexSelector → List Char
  | .compound simples => writtenCompound simples
  | .combined left combinator simples =>
      left.written ++ (combinator.written ++ writtenCompound simples)

/-- Complex selectors with commas between them. -/
def writtenAlternatives : List ComplexSelector → List Char
  | [] => []
  | [selector] => selector.written
  | selector :: rest => selector.written ++ ',' :: writtenAlternatives rest

end

/-- The text that writes the selectors. -/
def SelectorList.render (selectors : SelectorList) : String :=
  String.ofList (writtenAlternatives selectors)

/-! ### Tokens -/

/-- The token of the value in an attribute selector. -/
def writtenValueToken (value : String) : Token :=
  if value = "" then .string "" else .ident value

def Combinator.writtenTokens : Combinator → List Token
  | .descendant => [.whitespace]
  | combinator => [.whitespace, .delim combinator.sign, .whitespace]

def writtenFunctionTokens (name : String) (argument : List Token) : List Token :=
  .colon :: .function name :: (argument ++ [.rightParen])

mutual

/-- The tokens of the written form of a simple selector. -/
def SimpleSelector.writtenTokens : SimpleSelector → List Token
  | .tag name => [.ident name]
  | .universal => [.delim '*']
  | .id value => [.hash value true]
  | .className value => [.delim '.', .ident value]
  | .hasAttribute name none => [.leftBracket, .ident name, .rightBracket]
  | .hasAttribute name (some (op, value)) =>
      .leftBracket :: .ident name ::
        (Grammar.comparison op ++ [writtenValueToken value, .rightBracket])
  | .pseudoClass pseudo => [.colon, .ident pseudo.name]
  | .nthChild positions => writtenFunctionTokens "nth-child" positions.writtenTokens
  | .nthLastChild positions => writtenFunctionTokens "nth-last-child" positions.writtenTokens
  | .notAny selectors => writtenFunctionTokens "not" (alternativesTokens selectors)
  | .isAny selectors => writtenFunctionTokens "is" (alternativesTokens selectors)
  | .whereAny selectors => writtenFunctionTokens "where" (alternativesTokens selectors)
  | .pseudoElement pseudo => [.colon, .colon, .ident pseudo.name]

def compoundTokens : List SimpleSelector → List Token
  | [] => []
  | simple :: rest => simple.writtenTokens ++ compoundTokens rest

def ComplexSelector.writtenTokens : ComplexSelector → List Token
  | .compound simples => compoundTokens simples
  | .combined left combinator simples =>
      left.writtenTokens ++ (combinator.writtenTokens ++ compoundTokens simples)

def alternativesTokens : List ComplexSelector → List Token
  | [] => []
  | [selector] => selector.writtenTokens
  | selector :: rest => selector.writtenTokens ++ .comma :: alternativesTokens rest

end

/-! ### Shape -/

/-- Whether the name is not empty and can be written. -/
def Identifier.isWritable (name : String) : Bool :=
  name != "" && !name.toList.contains '\x00'

/-- Whether the simple selector can only stand at the beginning of a compound. -/
def SimpleSelector.isLeading : SimpleSelector → Bool
  | .tag _ => true
  | .universal => true
  | _ => false

mutual

def SimpleSelector.isWellShaped : SimpleSelector → Bool
  | .tag name => Identifier.isWritable name && Text.lowercase name == name
  | .universal => true
  | .id value => Identifier.isWritable value
  | .className value => Identifier.isWritable value
  | .hasAttribute name none => Identifier.isWritable name
  | .hasAttribute name (some (_, value)) =>
      Identifier.isWritable name && !value.toList.contains '\x00'
  | .pseudoClass _ => true
  | .nthChild _ => true
  | .nthLastChild _ => true
  | .notAny selectors => !selectors.isEmpty && areWellShaped selectors
  | .isAny selectors => !selectors.isEmpty && areWellShaped selectors
  | .whereAny selectors => !selectors.isEmpty && areWellShaped selectors
  | .pseudoElement _ => true

/-- Whether the simple selectors can follow others in a compound. -/
def canFollow : List SimpleSelector → Bool
  | [] => true
  | simple :: rest => !simple.isLeading && simple.isWellShaped && canFollow rest

def isWellShapedCompound : List SimpleSelector → Bool
  | [] => false
  | first :: rest => first.isWellShaped && canFollow rest

def ComplexSelector.isWellShaped : ComplexSelector → Bool
  | .compound simples => isWellShapedCompound simples
  | .combined left _ simples => left.isWellShaped && isWellShapedCompound simples

def areWellShaped : List ComplexSelector → Bool
  | [] => true
  | selector :: rest => selector.isWellShaped && areWellShaped rest

end

/-- Whether the selectors have the shape of selectors that were read from a text. -/
def SelectorList.isWellShaped (selectors : SelectorList) : Bool :=
  !selectors.isEmpty && areWellShaped selectors

end DomQuery
