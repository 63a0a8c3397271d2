import DuplicateBlocks.Options.Reader
import DuplicateBlocks.Tree.Lookup

namespace DuplicateBlocks.Options

inductive FileFault where
  | unreadable (path : String) (fault : Tree.Fault)
  | tooLarge (path : String)
  | malformed (path : String) (fault : Json.Fault)
  deriving DecidableEq, Repr

def maxFileBytes : Nat := 1024 * 1024

def FileFault.message : FileFault → String
  | unreadable path f => "cannot read config file " ++ path ++ ": " ++ f.message
  | tooLarge path => "config file " ++ path ++ " is larger than " ++ Nat.repr maxFileBytes ++ " bytes"
  | malformed path _ => "config file " ++ path ++ " is not a JSON object"

def load (top : Tree.Node) (path : String) : Except FileFault Raw := do
  let spot ← (Tree.find top true path).mapError (.unreadable path)
  if maxFileBytes < spot.node.size then throw (.tooLarge path)
  let bytes ← spot.node.contents.mapError (.unreadable path)
  match Text.Utf8.decode? bytes with
  | none => throw (.unreadable path .notText)
  | some text => (Raw.read text).mapError (.malformed path)

end DuplicateBlocks.Options
