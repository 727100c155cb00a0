/-!
# Identifiers

Any text can be written as an identifier of a selector: characters that would end the
identifier or begin something else are escaped, a control character or a leading digit by its
number and any other by a backslash before it.  U+0000 cannot be written, and U+FFFD stands
for it.
-/

namespace DomQuery.Identifier

/-- The escape of a character by its number. -/
def numberEscape (c : Char) : List Char :=
  '\\' :: Nat.toDigits 16 c.toNat ++ [' ']

/-- The written form of a character inside an identifier. -/
def escapeChar (c : Char) : List Char :=
  if c = '\x00' then ['\uFFFD']
  else if c ≤ '\x1f' ∨ c = '\x7f' then numberEscape c
  else if '\x80' ≤ c ∨ c = '-' ∨ c = '_' ∨ c.isAlphanum = true then [c]
  else ['\\', c]

/-- The written form of a character where an identifier cannot have a digit. -/
def escapeLeading (c : Char) : List Char :=
  if c.isDigit then numberEscape c else escapeChar c

/-- The identifier that stands for the given characters. -/
def escapeChars : List Char → List Char
  | [] => []
  | ['-'] => ['\\', '-']
  | '-' :: c :: rest => '-' :: (escapeLeading c ++ rest.flatMap escapeChar)
  | c :: rest => escapeLeading c ++ rest.flatMap escapeChar

/-- The identifier that stands for the given text. -/
def escape (text : String) : String :=
  String.ofList (escapeChars text.toList)

end DomQuery.Identifier
