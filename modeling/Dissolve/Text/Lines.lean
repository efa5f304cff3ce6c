/-!
# Text.Lines — cutting a text into lines

A line ends with a line feed, or with a carriage return and a line feed; neither belongs to it. A
carriage return anywhere else is an ordinary character. What stands behind the last line feed is a
line of its own unless it is empty.
-/

namespace Dissolve.Text

def dropReturn : List Char → List Char
  | '\r' :: line => line
  | line => line

/-- The lines of the rest of a text; `line` is the part of the current line that has been read, last
character first. -/
def linesFrom (line : List Char) : List Char → List String
  | [] => if line.isEmpty then [] else [String.ofList line.reverse]
  | '\n' :: rest => String.ofList (dropReturn line).reverse :: linesFrom [] rest
  | c :: rest => linesFrom (c :: line) rest

def lines (s : String) : List String :=
  linesFrom [] s.toList

end Dissolve.Text
