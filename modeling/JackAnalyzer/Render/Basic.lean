/-
  JackAnalyzer.Render.Basic — the text of a tree or a token listing in either form.
-/

import JackAnalyzer.Render.Format
import JackAnalyzer.Render.Json
import JackAnalyzer.Render.Xml

namespace JackAnalyzer.Format

def renderTree : Format → Tree → String
  | xml => Render.Xml.tree
  | json => Render.Json.tree

def renderTokens : Format → List Token → String
  | xml => Render.Xml.tokens
  | json => Render.Json.tokens

end JackAnalyzer.Format
