import DuplicateBlocks.Discovery.Options
import DuplicateBlocks.Discovery.Repository

namespace DuplicateBlocks.Discovery

-- Something that a walk meets below a root: a file under the names that lead to it, or a directory that cannot be
-- listed.
inductive Item where
  | file (names : List String)
  | fault (fault : Tree.Fault)

-- The ignore rules that a directory brings with it.
structure Level where
  -- How far below the root the directory lies.
  depth : Nat
  rules : List Ignore.Rule
  -- Rules that count only where no directory's `rules` say anything.
  weakRules : List Ignore.Rule

def ignoreFile : String := ".gitignore"

-- What a walk is given: the tree, the working directory, the path of the root, and what is looked for.
structure Walk where
  top : Tree.Node
  here : String
  root : String
  options : Options

namespace Walk

def pathOf (w : Walk) (names : List String) : String :=
  if names.isEmpty then w.root else Path.join w.root (Path.joinSegments names)

def rulesAt (top : Tree.Node) (path : String) : List Ignore.Rule :=
  match Tree.contents top path with
  | .ok bytes => Ignore.rulesOf bytes
  | .error _ => []

def isRepository (w : Walk) : Bool :=
  (Tree.find w.top true (Path.join w.root repository)).isOk

-- The file with the weak rules of a directory, if it has a repository.
def weakFile (w : Walk) (directory : String) : Except Tree.Fault (Option String) :=
  (repositoryOf w.top w.here directory).map (·.map (Path.join · weakIgnoreFile))

def weakRulesAt (w : Walk) (directory : String) : List Ignore.Rule :=
  match w.weakFile directory with
  | .ok (some file) => rulesAt w.top file
  | _ => []

def level (w : Walk) (names : List String) : Level where
  depth := names.length
  rules := if w.options.respectIgnoreFiles then rulesAt w.top (Path.join (w.pathOf names) ignoreFile) else []
  weakRules := if w.options.respectIgnoreFiles && w.isRepository then w.weakRulesAt (w.pathOf names) else []

-- The rules that the user has for all repositories. They count only below a root that is one.
def globalRules (w : Walk) : List Ignore.Rule :=
  match w.options.globalIgnoreFile with
  | none => []
  | some file => if w.options.respectIgnoreFiles && w.isRepository then rulesAt w.top file else []

-- The path that the user's own rules are matched against. It starts from the working directory, if that is a part of
-- it.
def globalPath (w : Walk) (names : List String) : String :=
  let cs := match (w.pathOf names).toList with
    | '.' :: '/' :: cs => cs
    | cs => cs
  let base := w.here.toList
  if base.isPrefixOf cs then
    String.ofList (match cs.drop base.length with
      | '/' :: rest => rest
      | rest => rest)
  else String.ofList cs

-- Whether an entry is ignored under levels, the lowest one first. The lowest level that says anything decides, its weak
-- rules come after all others, and the user's own come last.
def isIgnored (w : Walk) (levels : List Level) (isDirectory : Bool) (names : List String) : Bool :=
  let below (l : Level) := Path.joinSegments (names.drop l.depth)
  let verdict := levels.findSome? fun l => Ignore.verdict? l.rules isDirectory (below l)
  let weak := levels.findSome? fun l => Ignore.verdict? l.weakRules isDirectory (below l)
  (verdict <|> weak <|> Ignore.verdict? w.globalRules isDirectory (w.globalPath names)) == some .ignored

def nameLe (a b : String) : Bool :=
  !decide (b < a)

-- What entries hold, put in the order of their names.
def inOrder (found : List (String × List Item)) : List Item :=
  (found.mergeSort fun a b => nameLe a.1 b.1).flatMap Prod.snd

-- What is met in a directory. If it cannot be listed under its path, that is all there is to meet.
def listed (w : Walk) (names : List String) (items : List Item) : List Item :=
  match Tree.listingFault? w.top (w.pathOf names) with
  | some fault => [.fault fault]
  | none => items

mutual

-- What is met at a node that lies under given names, has `name` as the last of them, and has `levels` in force around
-- it.
def nodeItems (w : Walk) (levels : List Level) (names : List String) (name : String) : Tree.Node → List Item
  | .link _ => []
  | .file _ _ => if w.isIgnored levels false names then [] else [.file names]
  | .directory entries _ =>
    if w.isIgnored levels true names || w.options.ignoredDirectories.contains name then []
    else w.listed names (inOrder (entriesItems w (w.level names :: levels) names entries))

def entryItems (w : Walk) (levels : List Level) (names : List String) : String × Tree.Node → String × List Item
  | (name, node) => (name, nodeItems w levels (names ++ [name]) name node)

def entriesItems (w : Walk) (levels : List Level) (names : List String) :
    List (String × Tree.Node) → List (String × List Item)
  | [] => []
  | entry :: rest => entryItems w levels names entry :: entriesItems w levels names rest

end

def items (w : Walk) (entries : List (String × Tree.Node)) : List Item :=
  w.listed [] (inOrder (w.entriesItems [w.level []] [] entries))

-- Whether there is a file with faulty rules.
def isFaultyAt (w : Walk) (file : String) : Bool :=
  match Tree.contents w.top file with
  | .ok bytes => Ignore.isFaulty bytes
  | .error _ => false

-- What goes wrong with the rules of a directory: its repository cannot be made out because of a file in its place, or
-- rules cannot be understood, which is no fault of the tree.
def ruleFaults (w : Walk) (directory : String) : List (Option Tree.Fault) :=
  let ofRules (file : String) : List (Option Tree.Fault) := if w.isFaultyAt file then [none] else []
  let weak : List (Option Tree.Fault) := match w.weakFile directory with
    | .error fault => [some fault]
    | .ok file => file.elim [] ofRules
  if w.options.respectIgnoreFiles then
    ofRules (Path.join directory ignoreFile) ++ if w.isRepository then weak else []
  else []

-- What goes wrong with the rules of the directories above the root, which stands at a position. Such rules do not count
-- below the root, but they are met on the way to it.
def faultsAbove (w : Walk) (position : List String) : List (Option Tree.Fault) :=
  (List.range position.length).flatMap fun n => w.ruleFaults ("/" ++ Path.joinSegments (position.take n))

end Walk
end DuplicateBlocks.Discovery
