/-!
# Letter case

Tag names, attribute names and keywords compare without regard to the case of the letters
`A` to `Z`; no other character has a case here.
-/

namespace DomQuery.Text

/-- The text with the letters `A` to `Z` in lower case and all else as it is. -/
def lowercase (text : String) : String :=
  String.ofList (text.toList.map Char.toLower)

/-- Whether two texts are equal up to the case of the letters `A` to `Z`. -/
def sameFolded (first second : String) : Bool :=
  lowercase first == lowercase second

end DomQuery.Text
