/-
  JackAnalyzer.Artifact — the files that a unit's tree and token listing are written to:
  the name of the source without its extension, for the listing a `T` behind it, and the
  extension of the form; in a given directory, or next to the source.
-/

import JackAnalyzer.Path
import JackAnalyzer.Render.Format

namespace JackAnalyzer

structure Artifacts where
  tree : String
  tokens : String
  deriving DecidableEq, Repr

namespace Artifacts

def ofSource (source : String) (dir : Option String) (format : Format) : Artifacts :=
  let stem := Path.stem source
  let dir := dir.getD (Path.parent source)
  ⟨Path.join dir (stem ++ "." ++ format.extension), Path.join dir (stem ++ "T." ++ format.extension)⟩

end Artifacts

end JackAnalyzer
