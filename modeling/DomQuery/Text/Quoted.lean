import DomQuery.Text.Printable

/-!
# Quoted text

The one-line form of a text inside messages: it stands between double quotes, a short escape
or a code point in hexadecimal digits replaces each character that would break the line,
end the text early or not show up.  Single quotes stand as they are.
-/

namespace DomQuery.Text

/-- The code point of a character in hexadecimal digits, between the braces of a `\u` escape. -/
def codePointEscape (c : Char) : List Char :=
  ['\\', 'u', '\x7b'] ++ Nat.toDigits 16 c.toNat ++ ['\x7d']

/-- The form of one character inside quoted text. -/
def quoteChar (c : Char) : List Char :=
  match c with
  | '\x00' => ['\\', '0']
  | '\t' => ['\\', 't']
  | '\n' => ['\\', 'n']
  | '\r' => ['\\', 'r']
  | '"' => ['\\', '"']
  | '\\' => ['\\', '\\']
  | c => if isExtender c || !isPrintable c then codePointEscape c else [c]

/-- The text between double quotes, on one line and with every character visible. -/
def quoted (text : String) : String :=
  String.ofList (['"'] ++ text.toList.flatMap quoteChar ++ ['"'])

end DomQuery.Text
