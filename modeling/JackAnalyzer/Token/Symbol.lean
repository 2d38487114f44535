/-
  JackAnalyzer.Token.Symbol — the 19 symbols of Jack. Each is one character: the language
  has no longer operator, so a symbol always ends itself.
  - `ofChar?_eq_some_iff`: a character is read as a symbol exactly when it is its character.
-/

namespace JackAnalyzer

inductive Symbol where
  | lbrace | rbrace | lparen | rparen | lbracket | rbracket
  | dot | comma | semicolon
  | plus | minus | star | slash | ampersand | bar
  | less | greater | equals | tilde
  deriving DecidableEq, Repr

namespace Symbol

/-- Every symbol once, in the order of the language's table. -/
def all : List Symbol :=
  [lbrace, rbrace, lparen, rparen, lbracket, rbracket, dot, comma, semicolon, plus, minus, star, slash,
    ampersand, bar, less, greater, equals, tilde]

def char : Symbol → Char
  | lbrace => '{'
  | rbrace => '}'
  | lparen => '('
  | rparen => ')'
  | lbracket => '['
  | rbracket => ']'
  | dot => '.'
  | comma => ','
  | semicolon => ';'
  | plus => '+'
  | minus => '-'
  | star => '*'
  | slash => '/'
  | ampersand => '&'
  | bar => '|'
  | less => '<'
  | greater => '>'
  | equals => '='
  | tilde => '~'

def text (s : Symbol) : String := s.char.toString

def ofChar? (c : Char) : Option Symbol := all.find? (·.char == c)

def binary : List Symbol := [plus, minus, star, slash, ampersand, bar, less, greater, equals]

def unary : List Symbol := [minus, tilde]

def isBinary (s : Symbol) : Bool := binary.contains s

def isUnary (s : Symbol) : Bool := unary.contains s

theorem mem_all (s : Symbol) : s ∈ all := by cases s <;> decide

theorem ofChar?_char (s : Symbol) : ofChar? s.char = some s := by cases s <;> decide

theorem ofChar?_eq_some_iff {c : Char} {s : Symbol} : ofChar? c = some s ↔ c = s.char :=
  ⟨fun h => (beq_iff_eq.mp (List.find?_some h :)).symm, fun h => h ▸ ofChar?_char s⟩

end Symbol

end JackAnalyzer
