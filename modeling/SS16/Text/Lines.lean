/-!
# SS16.Text.Lines — text from lines

Every line of printed output ends in a line feed, the last one too.
-/

namespace SS16.Text

def unlines (ls : List String) : String :=
  String.join (ls.map (· ++ "\n"))

end SS16.Text
