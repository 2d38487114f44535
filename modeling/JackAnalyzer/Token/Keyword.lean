/-
  JackAnalyzer.Token.Keyword — the 21 reserved words of Jack and their spellings.
  - `ofText?_eq_some_iff`: a text is read as a keyword exactly when it is its spelling.
-/

namespace JackAnalyzer

inductive Keyword where
  | classKw | constructorKw | functionKw | methodKw
  | fieldKw | staticKw | varKw
  | intKw | charKw | booleanKw | voidKw
  | trueKw | falseKw | nullKw | thisKw
  | letKw | doKw | ifKw | elseKw | whileKw | returnKw
  deriving DecidableEq, Repr

namespace Keyword

/-- Every keyword once, in the order of the language's table. -/
def all : List Keyword :=
  [classKw, constructorKw, functionKw, methodKw, fieldKw, staticKw, varKw, intKw, charKw, booleanKw, voidKw,
    trueKw, falseKw, nullKw, thisKw, letKw, doKw, ifKw, elseKw, whileKw, returnKw]

def text : Keyword → String
  | classKw => "class"
  | constructorKw => "constructor"
  | functionKw => "function"
  | methodKw => "method"
  | fieldKw => "field"
  | staticKw => "static"
  | varKw => "var"
  | intKw => "int"
  | charKw => "char"
  | booleanKw => "boolean"
  | voidKw => "void"
  | trueKw => "true"
  | falseKw => "false"
  | nullKw => "null"
  | thisKw => "this"
  | letKw => "let"
  | doKw => "do"
  | ifKw => "if"
  | elseKw => "else"
  | whileKw => "while"
  | returnKw => "return"

/-- The keyword of that spelling; case counts. -/
def ofText? (s : String) : Option Keyword := all.find? (·.text == s)

def isConstant (k : Keyword) : Bool := [trueKw, falseKw, nullKw, thisKw].contains k

def isPrimitiveType (k : Keyword) : Bool := [intKw, charKw, booleanKw].contains k

theorem mem_all (k : Keyword) : k ∈ all := by cases k <;> decide

theorem ofText?_text (k : Keyword) : ofText? k.text = some k := by cases k <;> decide

theorem ofText?_eq_some_iff {s : String} {k : Keyword} : ofText? s = some k ↔ s = k.text :=
  ⟨fun h => (beq_iff_eq.mp (List.find?_some h :)).symm, fun h => h ▸ ofText?_text k⟩

theorem text_injective {j k : Keyword} (h : j.text = k.text) : j = k :=
  Option.some.inj ((ofText?_text j).symm.trans (h ▸ ofText?_text k))

end Keyword

end JackAnalyzer
