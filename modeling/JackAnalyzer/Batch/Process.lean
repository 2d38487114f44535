/-
  JackAnalyzer.Batch.Process — one unit, from its file to its artifacts. In this order: the
  source is read, scanned and parsed, the directory for artifacts is made, the tree is
  written, and then, if asked for, the token listing. The first failure ends it; what was
  written before stays.
  - `process_store_of_compile_error`: nothing changes where the source is at fault.
-/

import JackAnalyzer.Artifact
import JackAnalyzer.Render.Basic
import JackAnalyzer.Settings
import JackAnalyzer.SourceUnit
import JackAnalyzer.Store.Files

namespace JackAnalyzer.Batch

def readSource (s : Store) (path : String) : Except Error String :=
  match s.readText path with
  | .ok text => .ok text
  | .error f => .error (.io path f.message)

/-- The unit in a file. -/
def compileFile (s : Store) (path : String) : Except Error SourceUnit := do SourceUnit.compile (← readSource s path)

/-- The tokens of a file, whether or not they parse. -/
def tokenizeFile (s : Store) (path : String) : Except Error (List Token) := do SourceUnit.tokenize (← readSource s path)

/-- What was done to a store: the files written in order, the failure that ended it, if one
    did, and the store behind it. -/
structure Effect where
  written : List String
  failure : Option Error
  store : Store

namespace Effect

def result (e : Effect) : Except Error (List String) :=
  match e.failure with
  | none => .ok e.written
  | some failure => .error failure

end Effect

def writeAll : List (String × String) → Store → Effect
  | [], s => ⟨[], none, s⟩
  | (path, text) :: more, s =>
    match s.writeText path text with
    | .error f => ⟨[], some (.io path f.message), s⟩
    | .ok s =>
      let e := writeAll more s
      { e with written := path :: e.written }

/-- The artifacts of a unit: where they go and what they hold. -/
def artifacts (settings : OutputSettings) (source : String) (unit : SourceUnit) : List (String × String) :=
  let paths := Artifacts.ofSource source settings.dir settings.format
  (paths.tree, settings.format.renderTree unit.tree) ::
    if settings.tokens then [(paths.tokens, settings.format.renderTokens unit.tokens)] else []

def process (settings : OutputSettings) (source : String) (s : Store) : Effect :=
  match compileFile s source with
  | .error e => ⟨[], some e, s⟩
  | .ok unit =>
    match settings.dir with
    | none => writeAll (artifacts settings source unit) s
    | some dir =>
      match s.makeDirs dir with
      | (some f, s) => ⟨[], some (.io dir f.message), s⟩
      | (none, s) => writeAll (artifacts settings source unit) s

theorem process_store_of_compile_error {settings : OutputSettings} {source : String} {s : Store} {e : Error}
    (h : compileFile s source = .error e) : process settings source s = ⟨[], some e, s⟩ := by
  simp only [process, h]

end JackAnalyzer.Batch
