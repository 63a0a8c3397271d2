import DuplicateBlocks.Path.Basic
import DuplicateBlocks.Text.Utf8
import DuplicateBlocks.Tree.Basic

namespace DuplicateBlocks.Tree

def maxLinks : Nat := 40

def maxName : Nat := 255

def maxPath : Nat := 4095

def bytesOf (s : String) : Nat :=
  Text.Utf8.byteCount s.toList

-- Where segments lead to without following a link.
inductive Stage where
  | arrived (names : List String)
  -- A link is met. The way goes on from another position, along other segments.
  | jump (here segs : List String)

-- Goes along segments from a position, up to the first link that has to be followed. A link at the very end is followed
-- or not, as asked.
def advance (top : Node) (followLast : Bool) (here : List String) : List String → Except Fault Stage
  | [] => .ok (.arrived here)
  | seg :: rest => match top.at? here with
    | some (.directory entries bars) =>
      match bars.against? seg with
      | some fault => .error fault
      | none =>
        if Path.isNoise seg then advance top followLast here rest
        else if seg == ".." then advance top followLast here.dropLast rest
        else if maxName < bytesOf seg then .error .nameTooLong
        else match entries.lookup seg with
          | none => .error .notFound
          | some (.link target) =>
            if rest.isEmpty && !followLast then .ok (.arrived (here ++ [seg]))
            else .ok (.jump (if Path.isAbsolute target then [] else here) (Path.segments target ++ rest))
          | some _ => advance top followLast (here ++ [seg]) rest
    | _ => .error .notADirectory

-- The position that segments lead to from a position, with so many links left to follow.
def follow (top : Node) (followLast : Bool) (links : Nat) (here segs : List String) : Except Fault (List String) :=
  match advance top followLast here segs with
  | .error fault => .error fault
  | .ok (.arrived names) => .ok names
  | .ok (.jump here segs) => match links with
    | 0 => .error .tooManyLinks
    | links + 1 => follow top followLast links here segs

-- Where a path leads: the position, free of links, and what stands there.
structure Spot where
  names : List String
  node : Node

def Spot.path (s : Spot) : String :=
  "/" ++ Path.joinSegments s.names

def find (top : Node) (followLast : Bool) (path : String) : Except Fault Spot := do
  if path.toList.contains (Char.ofNat 0) then throw .zeroByte
  if path == "" then throw .notFound
  if maxPath < bytesOf path then throw .nameTooLong
  let names ← follow top followLast maxLinks [] (Path.segments path)
  match top.at? names with
  | some node => return { names, node }
  | none => throw .notFound

def contents (top : Node) (path : String) : Except Fault (List UInt8) := do
  (← find top true path).node.contents

def listingFault? (top : Node) (path : String) : Option Fault :=
  match find top true path with
  | .ok { node := .directory _ bars, .. } => bars.list?
  | .ok _ => some .notADirectory
  | .error fault => some fault

-- The path without links that a path leads to, or else the path cleaned as text.
def resolved (top : Node) (path : String) : String :=
  match find top true path with
  | .ok spot => spot.path
  | .error _ => Path.clean path

end DuplicateBlocks.Tree
