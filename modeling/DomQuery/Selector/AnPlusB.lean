import DomQuery.Selector.Error
import DomQuery.Text.Blank

/-!
# Positions of the form `an+b`

The argument of a positional pseudo-class stands for the positions `a * n + b` with `n = 0`,
`1`, `2` and so on.  Both coefficients and the positions are 32-bit integers; whether a
position is among them is decided in 64-bit arithmetic, where no step overflows.

The written forms are `odd`, `even`, a plain integer, and a coefficient, the letter `n` and an
integer that has a sign.  Blanks anywhere and the case of letters do not count.
-/

namespace DomQuery

/-- The positions `a * n + b` for the natural numbers `n`. -/
structure AnPlusB where
  a : Int32
  b : Int32
  deriving DecidableEq, Repr

namespace AnPlusB

/-- Whether the position is `a * n + b` for some natural number `n`. -/
def holdsAt (positions : AnPlusB) (position : Int32) : Bool :=
  if positions.a = 0 then position == positions.b
  else
    let distance := position.toInt64 - positions.b.toInt64
    let step := positions.a.toInt64
    distance % step == 0 && decide (0 ≤ distance / step)

/-- The 32-bit integer with the given value, if there is one. -/
def ofInt? (value : Int) : Option Int32 :=
  if -2147483648 ≤ value ∧ value < 2147483648 then some (Int32.ofInt value) else none

/-- Reads one or more decimal digits. -/
def natural? (digits : List Char) : Option Nat :=
  if digits.isEmpty || !digits.all Char.isDigit then none
  else some (Nat.ofDigitChars 10 digits 0)

/-- Reads an integer: an optional sign and one or more digits. -/
def integer? : List Char → Option Int32
  | '+' :: digits => (natural? digits).bind fun magnitude => ofInt? magnitude
  | '-' :: digits => (natural? digits).bind fun magnitude => ofInt? (-magnitude)
  | digits => (natural? digits).bind fun magnitude => ofInt? magnitude

/-- Reads the coefficient before `n`, which is one where only a sign is written. -/
def coefficient? : List Char → Option Int32
  | [] => some 1
  | ['+'] => some 1
  | ['-'] => some (-1)
  | text => integer? text

/-- Reads the integer after `n`, which is zero where none is written and has a sign otherwise. -/
def offset? : List Char → Option Int32
  | [] => some 0
  | '+' :: digits => integer? ('+' :: digits)
  | '-' :: digits => integer? ('-' :: digits)
  | _ => none

/-- Reads a text without blanks and in lower case. -/
def ofCompact? (text : List Char) : Option AnPlusB :=
  if text = ['o', 'd', 'd'] then some ⟨2, 1⟩
  else if text = ['e', 'v', 'e', 'n'] then some ⟨2, 0⟩
  else
    match text.dropWhile (· != 'n') with
    | [] => (integer? text).map fun b => ⟨0, b⟩
    | _ :: after =>
        match coefficient? (text.takeWhile (· != 'n')), offset? after with
        | some a, some b => some ⟨a, b⟩
        | _, _ => none

/-- The text without blanks and in lower case. -/
def compact (text : List Char) : List Char :=
  (text.filter fun c => !Text.isBlank c).map Char.toLower

/-- Reads the argument of a positional pseudo-class. -/
def ofText (text : String) : Except SelectorError AnPlusB :=
  match ofCompact? (compact text.toList) with
  | some positions => .ok positions
  | none => .error (.invalidNth (String.ofList (Text.trim text.toList)))

end AnPlusB

end DomQuery
