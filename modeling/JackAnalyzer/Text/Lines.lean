/-
  JackAnalyzer.Text.Lines — a text cut into lines.
-/

namespace JackAnalyzer.Text

/-- The text cut after every line feed. -/
def lines : List Char → List (List Char)
  | [] => []
  | c :: cs =>
    if c = '\n' then [c] :: lines cs
    else
      match lines cs with
      | [] => [[c]]
      | l :: ls => (c :: l) :: ls

end JackAnalyzer.Text
