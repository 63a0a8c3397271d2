import DuplicateBlocks.Text.Blank

namespace DuplicateBlocks.Text

def newline : Char := '\n'

-- The pieces between line feeds, without the empty one that a final line feed leaves.
def feedPieces (text : List Char) : List (List Char) :=
  let ps := pieces (· == newline) text
  if ps.getLast? == some [] then ps.dropLast else ps

-- A line without one carriage return at its end.
def dropReturn (line : List Char) : List Char :=
  if line.getLast? == some '\r' then line.dropLast else line

-- The lines of a text. Only a carriage return right before a line feed belongs to the line's end.
def lines (text : List Char) : List (List Char) :=
  let ps := pieces (· == newline) text
  let ended := ps.dropLast.map dropReturn
  match ps.getLast? with
  | some (c :: cs) => ended ++ [c :: cs]
  | _ => ended

-- The lines by which blocks are counted.
def sourceLines (text : List Char) : List (List Char) :=
  (feedPieces text).map dropReturn

def unlines (ls : List (List Char)) : List Char :=
  List.intercalate [newline] ls

-- The lines a text is compared by: none if it is empty, else the pieces between line feeds.
def comparedLines (text : List Char) : List (List Char) :=
  if text.isEmpty then [] else pieces (· == newline) text

def ellipsis : List Char := ['.', '.', '.']

-- A line without the blanks at its end, cut to `width` characters.
def shorten (width : Nat) (line : List Char) : List Char :=
  let body := trimEnd line
  if body.length ≤ width then body else body.take width ++ ellipsis

def preview (count width : Nat) (text : List Char) : List Char :=
  unlines ((((lines text).filter fun l => !(trim l).isEmpty).take count).map (shorten width))

end DuplicateBlocks.Text
