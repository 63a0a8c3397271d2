import DuplicateBlocks.Block
import DuplicateBlocks.Source

namespace DuplicateBlocks

open Text

-- A run of lines and how many lines stand before it.
structure Window where
  offset : Nat
  lines : List (List Char)
  deriving DecidableEq, Repr

namespace Window

-- How far a window of `w` lines moves on.
def stride (w : Nat) : Nat :=
  max 1 (w / 2)

theorem stride_pos (w : Nat) : 0 < stride w :=
  Nat.le_max_left ..

-- Collects the windows of `w` lines from line `pos` on, as long as there is room for one, the latest first.
def slide (w : Nat) (lines : Array (List Char)) (pos : Nat) (found : List Window) : List Window :=
  if pos + w ≤ lines.size then
    slide w lines (pos + stride w) (⟨pos, (lines.extract pos (pos + w)).toList⟩ :: found)
  else found
termination_by lines.size + 1 - pos
decreasing_by
  have := stride_pos w
  omega

def all (w : Nat) (lines : Array (List Char)) : List Window :=
  (slide w lines 0 []).reverse

-- Whether a line holds more than blanks and comment.
def isSubstantive (line : List Char) : Bool :=
  match trimStart line with
  | [] | '*' :: _ | '/' :: '/' :: _ | '/' :: '*' :: _ => false
  | _ => true

-- Whether at least seven tenths of the `w` lines are substantive.
def isDense (w : Nat) (win : Window) : Bool :=
  7 * w ≤ 10 * win.lines.countP isSubstantive

def raw (win : Window) : List Char :=
  unlines win.lines

def block (source : String) (w : Nat) (win : Window) (normal : List Char) : Block where
  source := source
  first := (win.offset + 1).toUInt32
  last := (win.offset + w).toUInt32
  raw := win.raw
  normal := normal

end Window

namespace Source

def lineArray (s : Source) : Array (List Char) :=
  (sourceLines s.text).toArray

-- The blocks of a source: its dense windows of `w` lines.
def blocks (limits : Code.Limits) (w : Nat) (s : Source) : List Block :=
  ((Window.all w s.lineArray).filter (Window.isDense w)).map fun win =>
    win.block s.id w (Code.normalize limits win.raw).text

end Source
end DuplicateBlocks
