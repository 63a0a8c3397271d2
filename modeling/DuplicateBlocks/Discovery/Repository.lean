import DuplicateBlocks.Ignore.File
import DuplicateBlocks.Tree.Lookup

namespace DuplicateBlocks.Discovery

def repository : String := ".git"

-- The rules of a repository, which are weaker than those in its directories.
def weakIgnoreFile : String := "info/exclude"

-- The file that leads to what working copies share.
def sharedFile : String := "commondir"

def pointerMark : List Char := "gitdir: ".toList

-- The first line of a file. An empty file has none.
def firstLine? (bytes : List UInt8) : Except Tree.Fault (Option (List Char)) :=
  if bytes.isEmpty then .ok none
  else match Text.Utf8.decode? (bytes.takeWhile (· != Ignore.lineFeed)) with
    | none => .error .notText
    | some line => .ok (some (if bytes.contains Ignore.lineFeed then Text.dropReturn line else line))

-- The directory that a file in the place of a repository leads to, if it leads anywhere.
def pointed? (bytes : List UInt8) : Except Tree.Fault (Option String) :=
  (firstLine? bytes).map fun line => line.bind fun cs =>
    if pointerMark.isPrefixOf cs then some (String.ofList (cs.drop pointerMark.length)) else none

-- The shared directory that the first line of a file in another directory leads to. Only a path with a dot at
-- its front is taken from that directory.
def shared? (directory : String) (bytes : List UInt8) : Except Tree.Fault (Option String) :=
  (firstLine? bytes).map fun line => line.map fun cs =>
    if cs.head? == some '.' then Path.join directory (String.ofList cs) else String.ofList cs

-- The repository of a directory: its own, or the one that a file in its place leads to. A file that leads
-- nowhere stands for none. Paths in such files are taken from the working directory `here`.
def repositoryOf (top : Tree.Node) (here directory : String) : Except Tree.Fault (Option String) :=
  let own := Path.join directory repository
  match Tree.find top true own with
  | .ok { node := .file _ (some fault), .. } => .error fault
  | .ok { node := .file content none, .. } => match pointed? content with
    | .error e => .error e
    | .ok none => .ok none
    | .ok (some linked) => match Tree.contents top (Path.join here (Path.join linked sharedFile)) with
      | .ok bytes => (shared? linked bytes).map (·.map (Path.join here))
      | .error .isADirectory => .error .isADirectory
      | .error _ => .ok none
  | _ => .ok (some own)

end DuplicateBlocks.Discovery
