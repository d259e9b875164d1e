/-!
# Quoted tokens

A string is written between single quotes, with every quote inside it written twice.  `token`
writes a string so, and `unquote` reads the value of a token.
-/

namespace Colloquy.Text

/-- Writes every quote twice. -/
def doubleQuotes : List Char → List Char
  | [] => []
  | c :: rest => if c = '\'' then '\'' :: '\'' :: doubleQuotes rest else c :: doubleQuotes rest

/-- Reads two quotes in a row as one, from left to right. -/
def collapseQuotes : List Char → List Char
  | '\'' :: '\'' :: rest => '\'' :: collapseQuotes rest
  | c :: rest => c :: collapseQuotes rest
  | [] => []

/-- The characters between the outer quotes; all of them if the token does not start and end with
a quote of its own. -/
def insideQuotes : List Char → List Char
  | '\'' :: rest => if rest.getLast? = some '\'' then rest.dropLast else '\'' :: rest
  | cs => cs

/-- The token that stands for a string. -/
def token (s : String) : String := String.ofList ('\'' :: doubleQuotes s.toList ++ ['\''])

/-- The string that a token stands for. -/
def unquote (t : String) : String := String.ofList (collapseQuotes (insideQuotes t.toList))

end Colloquy.Text
