import DuplicateBlocks.Path.Basic

namespace DuplicateBlocks.Path

def slashed (s : String) : String :=
  s.map fun c => if c == '\\' then '/' else c

-- Whether a path given by another program stays below the directory it is taken from.
def isSafeRelative (raw : String) : Bool :=
  raw != "" && !isAbsolute raw && (components raw).all fun
    | .name _ => true
    | _ => false

-- The id of a file below a root; the file's own name if it is the root itself.
def relativeId (root file : String) : String :=
  match relativeTo? file root with
  | some rel => if rel != "" then slashed rel else ownName
  | none => ownName
where
  ownName := (fileName? file).getD (slashed file)

-- The name by which a root is told from others: its last name, else its number.
def rootLabel (index : Nat) (root : String) : String :=
  (fileName? root).getD ("root" ++ Nat.repr index)

def labelled (label : Option String) (id : String) : String :=
  match label with
  | some l => l ++ "/" ++ id
  | none => id

-- The id of a file named by hand: relative to the working directory if the file lies below it.
def ruleId (file cwd : String) : String :=
  let path := clean (join cwd file)
  match relativeTo? path (clean cwd) with
  | some rel => slashed (if rel != "" then rel else path)
  | none => slashed path

end DuplicateBlocks.Path
