namespace ArgTree

-- A range of characters of a text, from `start` up to but not including `stop`.
structure Span where
  start : Nat
  stop  : Nat
  deriving DecidableEq

namespace Span

def empty (place : Nat) : Span := ⟨place, place⟩

def length (s : Span) : Nat := s.stop - s.start

def isEmpty (s : Span) : Bool := s.start = s.stop

end Span

end ArgTree
