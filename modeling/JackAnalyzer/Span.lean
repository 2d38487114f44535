/-
  JackAnalyzer.Span — where a token stands: a range of byte offsets into the UTF-8 text of
  one source unit, half open. The default span is the empty one at offset 0, which stands
  for "no place at all".
-/

namespace JackAnalyzer

structure Span where
  start : Nat
  stop : Nat
  deriving DecidableEq, Repr

namespace Span

instance : Inhabited Span := ⟨⟨0, 0⟩⟩

def point (n : Nat) : Span := ⟨n, n⟩

def length (s : Span) : Nat := s.stop - s.start

def isEmpty (s : Span) : Bool := s.start == s.stop

/-- The span moved by `n` bytes towards the end of the text. -/
def shift (n : Nat) (s : Span) : Span := ⟨s.start + n, s.stop + n⟩

end Span

end JackAnalyzer
