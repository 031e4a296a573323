namespace ArgTree.CaretMark

-- The lines of a text. They end at a newline, which a carriage return may precede, and the end of
-- the text does not begin a line.
def lines : List Char → List (List Char)
  | []                 => []
  | '\r' :: '\n' :: cs => [] :: lines cs
  | '\n' :: cs         => [] :: lines cs
  | c :: cs            =>
    match lines cs with
    | []      => [[c]]
    | l :: ls => (c :: l) :: ls

-- Reads a source with a caret in its second line: the first line, and the number of characters in
-- front of the first caret in the second one, if there is one.
def read? (annotated : String) : Option (String × Nat) :=
  match lines annotated.toList with
  | source :: marker :: _ => (marker.findIdx? (· = '^')).map (String.ofList source, ·)
  | _                     => none

-- What is said of a text without a caret.
def complaint (annotated : String) : String :=
  "annotation has no caret line:\n" ++ annotated

end ArgTree.CaretMark
