/-!
# SS16.Text.Identifier — names of symbols

A name starts with an ASCII letter or an underscore and goes on with letters, digits and
underscores.
-/

namespace SS16.Identifier

def isHead (c : Char) : Bool :=
  c.isAlpha || c == '_'

def isTail (c : Char) : Bool :=
  c.isAlphanum || c == '_'

def valid : List Char → Bool
  | [] => false
  | c :: cs => isHead c && cs.all isTail

def isValid (s : String) : Bool :=
  valid s.toList

end SS16.Identifier
