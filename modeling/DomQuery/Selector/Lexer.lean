import DomQuery.Selector.Error
import DomQuery.Selector.Token

/-!
# Reading a token

`Lexer.next` reads one token from the front of a text and returns the text after it.  It can
be called again whatever it returned, also after an error: the text that it returns is where
reading goes on.

Comments stand for nothing and are passed over.  A backslash makes the character after it
part of a name or a string; one to six hexadecimal digits after it are the number of a
character, and one space character after the digits belongs to them.
-/

namespace DomQuery.Lexer

/-! ### Character classes -/

/-- The space characters between tokens. -/
def isSpace (c : Char) : Bool :=
  c == ' ' || c == '\t' || c == '\n' || c == '\r' || c == '\x0c'

/-- The characters that a name can begin with: letters, the low line and everything beyond
the first 128 characters. -/
def isNameStart (c : Char) : Bool :=
  c.isAlpha || c == '_' || 0x80 ≤ c.toNat

/-- The characters that a name can go on with. -/
def isNameChar (c : Char) : Bool :=
  isNameStart c || c.isDigit || c == '-'

/-- The hexadecimal digits. -/
def isHexDigit (c : Char) : Bool :=
  c.isDigit || ('a' ≤ c && c ≤ 'f') || ('A' ≤ c && c ≤ 'F')

/-! ### Look-ahead -/

/-- Whether the text begins with a backslash and a character that it can escape. -/
def startsEscape : List Char → Bool
  | '\\' :: c :: _ => c != '\n'
  | _ => false

/-- Whether the text begins with a name that could stand as an identifier. -/
def startsName : List Char → Bool
  | '-' :: rest =>
      startsEscape rest ||
        match rest with
        | c :: _ => isNameStart c || c == '-'
        | [] => false
  | c :: rest => isNameStart c || startsEscape (c :: rest)
  | [] => false

/-- Whether the text begins with a digit, after an optional point. -/
def startsFraction : List Char → Bool
  | '.' :: c :: _ => c.isDigit
  | c :: _ => c.isDigit
  | [] => false

/-- Whether the text begins with a number. -/
def startsNumber : List Char → Bool
  | '+' :: rest => startsFraction rest
  | '-' :: rest => startsFraction rest
  | text => startsFraction text

/-! ### Parts of tokens -/

/-- The value of a hexadecimal digit. -/
def hexValue (c : Char) : Nat :=
  if c.isDigit then c.toNat - '0'.toNat else c.toLower.toNat - 'a'.toNat + 10

/-- The character with the given number, or U+FFFD where the number is zero or belongs to no
character. -/
def scalar (code : Nat) : Char :=
  if code.isValidChar ∧ code ≠ 0 then Char.ofNat code else '\uFFFD'

/-- The text without the one space character at its beginning, if there is one. -/
def dropSpace : List Char → List Char
  | c :: rest => if isSpace c then rest else c :: rest
  | [] => []

/-- Reads what follows the backslash of an escape: the character that it stands for, and the
text after it. -/
def escape : List Char → Char × List Char
  | [] => ('\uFFFD', [])
  | c :: rest =>
      if isHexDigit c then
        let more := (rest.take 5).takeWhile isHexDigit
        let code := (c :: more).foldl (fun code digit => code * 16 + hexValue digit) 0
        (scalar code, dropSpace (rest.drop more.length))
      else (c, rest)

theorem dropSpace_suffix (text : List Char) : dropSpace text <:+ text := by
  cases text with
  | nil => exact List.suffix_refl _
  | cons c rest =>
      simp only [dropSpace]
      split
      · exact List.suffix_cons c rest
      · exact List.suffix_refl _

theorem escape_suffix (text : List Char) : (escape text).2 <:+ text := by
  cases text with
  | nil => exact List.suffix_refl _
  | cons c rest =>
      simp only [escape]
      split
      · exact ((dropSpace_suffix _).trans (List.drop_suffix _ _)).trans (List.suffix_cons c rest)
      · exact List.suffix_cons c rest

/-- Reads a name as far as it goes: its characters with the escapes resolved, and the text
after it. -/
def name : List Char → List Char × List Char
  | [] => ([], [])
  | c :: rest =>
      if isNameChar c then
        let tail := name rest
        (c :: tail.1, tail.2)
      else if startsEscape (c :: rest) then
        let tail := name (escape rest).2
        ((escape rest).1 :: tail.1, tail.2)
      else ([], c :: rest)
termination_by text => text.length
decreasing_by
  · simp
  · exact Nat.lt_succ_of_le (escape_suffix rest).length_le

/-- The sign at the beginning of the text, if there is one, and the text after it. -/
def sign : List Char → List Char × List Char
  | '+' :: rest => (['+'], rest)
  | '-' :: rest => (['-'], rest)
  | text => ([], text)

/-- The point and the digits at the beginning of the text, if a digit follows the point, and
the text after them. -/
def fraction : List Char → List Char × List Char
  | '.' :: c :: rest =>
      if c.isDigit then
        ('.' :: c :: rest.takeWhile Char.isDigit, rest.dropWhile Char.isDigit)
      else ([], '.' :: c :: rest)
  | text => ([], text)

/-- Reads a number as far as it goes: its characters, and the text after it. -/
def number (text : List Char) : List Char × List Char :=
  let unsigned := (sign text).2
  let decimals := fraction (unsigned.dropWhile Char.isDigit)
  ((sign text).1 ++ unsigned.takeWhile Char.isDigit ++ decimals.1, decimals.2)

/-- Reads a string after its opening quote: its characters, or `none` when the text or the
line ends first, and the text after it. -/
def string (quote : Char) : List Char → Option (List Char) × List Char
  | [] => (none, [])
  | c :: rest =>
      if c = quote then (some [], rest)
      else if c = '\n' then (none, rest)
      else if c = '\\' then
        match rest with
        | [] => (none, [])
        | d :: rest =>
            if d = '\n' then string quote rest
            else
              let tail := string quote (escape (d :: rest)).2
              (tail.1.map ((escape (d :: rest)).1 :: ·), tail.2)
      else
        let tail := string quote rest
        (tail.1.map (c :: ·), tail.2)
termination_by text => text.length
decreasing_by
  · simp only [List.length_cons]
    omega
  · exact Nat.lt_succ_of_le (escape_suffix (d :: rest)).length_le
  · simp

mutual

/-- The text after the comments at its beginning, or `none` when one of them is not closed. -/
def dropComments : List Char → Option (List Char)
  | '/' :: '*' :: rest => closeComment rest
  | text => some text

/-- The text after the rest of a comment and the comments that follow it. -/
def closeComment : List Char → Option (List Char)
  | '*' :: '/' :: rest => dropComments rest
  | _ :: rest => closeComment rest
  | [] => none

end

/-! ### Tokens -/

/-- Reads a number and the name right after it, if there is one. -/
def numeric (text : List Char) : Token × List Char :=
  let digits := number text
  if startsName digits.2 then
    let unit := name digits.2
    (.dimension (String.ofList digits.1) (String.ofList unit.1), unit.2)
  else (.number (String.ofList digits.1), digits.2)

/-- Reads a name and the opening parenthesis right after it, if there is one. -/
def named (text : List Char) : Token × List Char :=
  let word := name text
  match word.2 with
  | '(' :: rest => (.function (String.ofList word.1), rest)
  | rest => (.ident (String.ofList word.1), rest)

/-- Reads what follows `#`. -/
def hash (text : List Char) : Token × List Char :=
  if text.head?.any isNameChar || startsEscape text then
    let value := name text
    (.hash (String.ofList value.1) (startsName text), value.2)
  else (.delim '#', text)

/-- Reads what follows the opening quote of a string. -/
def quoted (quote : Char) (text : List Char) : Except SelectorError (Option Token) × List Char :=
  let body := string quote text
  match body.1 with
  | some chars => (.ok (some (.string (String.ofList chars))), body.2)
  | none => (.error (.unterminated .string), body.2)

/-- The token of a character that begins no longer token. -/
def punctuation : Char → Token
  | ':' => .colon
  | ',' => .comma
  | '[' => .leftBracket
  | ']' => .rightBracket
  | '(' => .leftParen
  | ')' => .rightParen
  | c => .delim c

/-- Reads one token from a text that begins with the character `c` and with no comment, and
returns the text after it. -/
def token (c : Char) (rest : List Char) : Except SelectorError (Option Token) × List Char :=
  let found (read : Token × List Char) := (.ok (some read.1), read.2)
  if isSpace c then found (.whitespace, rest.dropWhile isSpace)
  else if c = '"' ∨ c = '\'' then quoted c rest
  else if c = '#' then found (hash rest)
  else if startsNumber (c :: rest) then found (numeric (c :: rest))
  else if startsName (c :: rest) then found (named (c :: rest))
  else if c = '\\' then (.error (.unterminated .escape), c :: rest)
  else found (punctuation c, rest)

/-- Reads one token, or nothing at the end of the text, and returns the text after it. -/
def next (text : List Char) : Except SelectorError (Option Token) × List Char :=
  match dropComments text with
  | none => (.error (.unterminated .comment), [])
  | some [] => (.ok none, [])
  | some (c :: rest) => token c rest

end DomQuery.Lexer
