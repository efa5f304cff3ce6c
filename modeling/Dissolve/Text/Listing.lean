/-!
# Text.Listing — lists of items in one line
-/

namespace Dissolve.Text

def commaSeparated (items : List String) : String :=
  String.intercalate ", " items

def bracketed (items : List String) : String :=
  "[" ++ commaSeparated items ++ "]"

end Dissolve.Text
