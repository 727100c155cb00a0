import DomQuery.Text.Blank

/-!
# Clauses

An extended selector is a text of *clauses* with commas between them.  A clause that begins
with one of the markers `!`, `+`, `~`, `-` and `>` is relative to the context of the query;
any other clause is a plain selector.  Clauses are found in the text alone, by brackets,
quotes and backslashes, and without regard to whether they are selectors.

* `complete` writes a universal selector after every marker that nothing follows.
* `clauses` cuts the text at its top-level commas.
* `AnchorClause.ofText` cuts a relative clause into its anchor and the filter after it.
-/

namespace DomQuery

namespace Relative

/-- The characters that make a clause relative when they begin it. -/
def isMarker (c : Char) : Bool :=
  c == '!' || c == '+' || c == '~' || c == '-' || c == '>'

/-! ### Completion -/

/-- Whether a marker dangles, given the text after it: only blanks stand between it and the
end or a comma, or blanks stand between it and another marker. -/
def dangles (rest : List Char) : Bool :=
  match Text.trimStart rest with
  | [] => true
  | c :: _ => c == ',' || (isMarker c && rest.head?.any Text.isBlank)

/-- The text with ` *` after every dangling marker. -/
def completeChars : List Char → List Char
  | [] => []
  | c :: rest =>
      if isMarker c && dangles rest then c :: ' ' :: '*' :: completeChars rest
      else c :: completeChars rest

/-- The text with a universal selector after every dangling marker. -/
def complete (text : String) : String :=
  String.ofList (completeChars text.toList)

/-! ### Cutting at commas -/

/-- Puts a character in front of the first piece. -/
def consFirst (c : Char) : List (List Char) → List (List Char)
  | [] => [[c]]
  | piece :: pieces => (c :: piece) :: pieces

/-- The pieces between the commas outside brackets and quotes, given the number of open
brackets and the open quote.  A backslash takes the meaning from the character after it, and a
closing bracket without an opening one has none. -/
def pieces : Nat → Option Char → List Char → List (List Char)
  | _, _, [] => [[]]
  | _, _, ['\\'] => [['\\']]
  | depth, quote, '\\' :: c :: rest => consFirst '\\' (consFirst c (pieces depth quote rest))
  | depth, some quote, c :: rest =>
      consFirst c (pieces depth (if c = quote then none else some quote) rest)
  | depth, none, c :: rest =>
      if c = ',' ∧ depth = 0 then [] :: pieces 0 none rest
      else if c = '"' ∨ c = '\'' then consFirst c (pieces depth (some c) rest)
      else if c = '(' ∨ c = '[' then consFirst c (pieces (depth + 1) none rest)
      else if c = ')' ∨ c = ']' then consFirst c (pieces (depth - 1) none rest)
      else consFirst c (pieces depth none rest)

/-- The clauses of a text: its pieces without the blanks around them, empty ones left out. -/
def clauses (text : String) : List String :=
  (((pieces 0 none text.toList).map Text.trim).filter fun clause => !clause.isEmpty).map
    String.ofList

/-- Whether the clause is relative to the context. -/
def isRelative (clause : String) : Bool :=
  clause.toList.head?.any isMarker

end Relative

/-! ### Clause lists -/

/-- An extended selector cut into its clauses. -/
structure ClauseList where
  /-- The text as it was given. -/
  text : String
  clauses : List String
  deriving DecidableEq, Repr

namespace ClauseList

/-- Completes the text and cuts it into clauses. -/
def ofText (text : String) : ClauseList :=
  ⟨text, Relative.clauses (Relative.complete text)⟩

/-- The clauses with commas between them. -/
def normalized (list : ClauseList) : String :=
  ",".intercalate list.clauses

/-- Whether a clause is relative to the context. -/
def isRelative (list : ClauseList) : Bool :=
  list.clauses.any Relative.isRelative

/-- Whether there is exactly one clause. -/
def isSingle (list : ClauseList) : Bool :=
  list.clauses.length == 1

end ClauseList

/-! ### Anchor clauses -/

/-- A clause of the form marker, anchor, blank, filter. -/
structure AnchorClause where
  anchor : String
  /-- What stands after the first blank; it is empty where the clause is only an anchor. -/
  filter : String
  deriving DecidableEq, Repr

/-- Cuts a clause at the first blank of what follows its marker. -/
def AnchorClause.ofText (clause : String) : AnchorClause :=
  let parts := Text.cutAtBlank (Text.trim (clause.toList.drop 1))
  ⟨String.ofList parts.1, String.ofList (Text.trim parts.2)⟩

end DomQuery
