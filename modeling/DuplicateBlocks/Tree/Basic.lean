namespace DuplicateBlocks.Tree

-- Why a path leads nowhere, or what it leads to cannot be used.
inductive Fault where
  | notFound
  | permissionDenied
  | notADirectory
  | isADirectory
  | nameTooLong
  | tooManyLinks
  | zeroByte
  | notText
  deriving DecidableEq, Repr

def Fault.message : Fault → String
  | notFound => "No such file or directory (os error 2)"
  | permissionDenied => "Permission denied (os error 13)"
  | notADirectory => "Not a directory (os error 20)"
  | isADirectory => "Is a directory (os error 21)"
  | nameTooLong => "File name too long (os error 36)"
  | tooManyLinks => "Too many levels of symbolic links (os error 40)"
  | zeroByte => "file name contained an unexpected NUL byte"
  | notText => "stream did not contain valid UTF-8"

-- What is kept from a directory's users: the list of its names, and what stands under them.
structure Bars where
  list? : Option Fault := none
  search? : Option Fault := none
  deriving DecidableEq, Repr

namespace Bars

-- Why a segment of a path cannot be looked up. An empty one needs no look.
def against? (bars : Bars) (seg : String) : Option Fault :=
  if seg == "" then none else bars.search?

def or (bars others : Bars) : Bars where
  list? := bars.list?.or others.list?
  search? := bars.search?.or others.search?

end Bars

inductive Node where
  -- A file with its bytes, and the fault that opening it gives, if any.
  | file (content : List UInt8) (bar : Option Fault := none)
  | directory (entries : List (String × Node)) (bars : Bars := {})
  | link (target : String)

namespace Node

def empty : Node := directory []

-- What stands at a position, which is given by the names that lead to it. No link is followed on the way.
def at? : Node → List String → Option Node
  | node, [] => some node
  | directory entries _, name :: names => (entries.lookup name).bind (·.at? names)
  | file _ _, _ :: _ => none
  | link _, _ :: _ => none

@[simp]
theorem at?_nil (node : Node) : node.at? [] = some node := by
  cases node <;> rfl

theorem at?_append (node : Node) (front rest : List String) :
    node.at? (front ++ rest) = (node.at? front).bind (·.at? rest) := by
  induction front generalizing node with
  | nil => simp
  | cons name names ih =>
    cases node with
    | directory entries bars => cases h : entries.lookup name <;> simp [at?, h, ih]
    | _ => simp [at?]

-- The size that is told of something without opening it.
def size : Node → Nat
  | file content _ => content.length
  | _ => 0

def contents : Node → Except Fault (List UInt8)
  | file content none => .ok content
  | file _ (some fault) => .error fault
  | directory _ bars => .error (bars.list?.getD .isADirectory)
  | link _ => .error .notFound

def setEntry (entries : List (String × Node)) (name : String) (node : Node) : List (String × Node) :=
  match entries with
  | [] => [(name, node)]
  | (n, old) :: rest => if n == name then (n, node) :: rest else (n, old) :: setEntry rest name node

-- A tree with a node put at a position. Directories on the way are made as needed, and one that is there keeps its
-- entries when it is put again without any.
def put (node : Node) : List String → Node → Node
  | [], directory entries bars => match node with
    | directory [] others => directory entries (bars.or others)
    | _ => node
  | [], _ => node
  | name :: names, directory entries bars =>
    directory (setEntry entries name (put node names ((entries.lookup name).getD empty))) bars
  | name :: names, _ => directory [(name, put node names empty)]

end Node
end DuplicateBlocks.Tree
