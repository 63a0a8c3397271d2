import DuplicateBlocks.Discovery.Reading
import DuplicateBlocks.Discovery.Walk
import DuplicateBlocks.Path.Id
import DuplicateBlocks.Source

namespace DuplicateBlocks.Discovery

-- Something met in a search.
inductive Event where
  -- A file under a path, its id among the files of its root, and the label of that root.
  | file (path id : String) (label : Option String) (found : Finding)
  -- Something that goes wrong on a walk. Where no single fault of the tree is to blame, there is no cause.
  | fault (cause : Option Tree.Fault)
  -- A path that does not stay below the root.
  | outside
  deriving DecidableEq, Repr

structure Haul where
  files : List Source := []
  ledger : Ledger := {}

inductive Step where
  | stop (ledger : Ledger)
  | next (file : Option Source) (ledger : Ledger)

-- Takes up a file of a wanted kind: it is a candidate, and read unless its id is excluded.
def Ledger.takeUp (l : Ledger) (o : Options) (id : String) (label : Option String) (found : Finding) :
    Option Source × Ledger :=
  let l := { l with candidates := l.candidates.succ }
  if o.excluded.excludes id then (none, { l with excluded := l.excluded.succ })
  else
    let (text, l) := l.read o found
    (text.map fun t => { id := Path.labelled label id, text := t }, l)

-- Takes an event. A wanted file that comes when no more may be read ends the search.
def Ledger.take (l : Ledger) (o : Options) : Event → Step
  | .fault cause => .next none (l.enterSkip (.ofCause cause))
  | .outside => .next none { l with outsideRoot := l.outsideRoot.succ }
  | .file path id label found =>
    if !o.wants path then .next none l
    else if l.isFull o then .stop (l.enterSkip .overFileBudget)
    else
      let (file, l) := l.takeUp o id label found
      .next file l

def Haul.ofEvents (o : Options) (l : Ledger) : List Event → Haul
  | [] => { ledger := l }
  | e :: es => match l.take o e with
    | .stop l => { ledger := l }
    | .next file l =>
      let haul := ofEvents o l es
      { haul with files := file.toList ++ haul.files }

structure RootFault where
  root : String
  fault : Tree.Fault
  deriving DecidableEq, Repr

def RootFault.message (f : RootFault) : String :=
  "root " ++ f.root ++ ": " ++ f.fault.message

def findRoot (top : Tree.Node) (root : String) : Except RootFault Tree.Spot :=
  (Tree.find top true root).mapError fun e => ⟨root, e⟩

-- What goes wrong at once makes one event.
def faultEvents : List (Option Tree.Fault) → List Event
  | [] => []
  | [cause] => [.fault cause]
  | _ => [.fault none]

def Walk.event (w : Walk) (label : Option String) : Item → Event
  | .fault fault => .fault (some fault)
  | .file names =>
    let path := Path.joinSegments names
    .file path (Path.slashed path) label (.at w.top (w.pathOf names))

-- The events under a root. A root that is a file is all there is to find.
def rootEvents (top : Tree.Node) (here : String) (o : Options) (root : String) (label : Option String)
    (spot : Tree.Spot) : List Event :=
  let w : Walk := { top, here, root, options := o }
  match spot.node with
  | .directory entries _ => faultEvents (w.faultsAbove spot.names) ++ (w.items entries).map (w.event label)
  | _ => [.file root (Path.relativeId root root) label (.at top root)]

-- The events under roots, each with the place it leads to. Ids are labelled if there is more than one root.
def allEvents (top : Tree.Node) (here : String) (o : Options) (roots : List (String × Tree.Spot)) : List Event :=
  roots.zipIdx.flatMap fun ((root, spot), i) =>
    rootEvents top here o root (if 1 < roots.length then some (Path.rootLabel i root) else none) spot

-- Searches roots, with `here` as the working directory. All of them are looked up before any is walked.
def search (top : Tree.Node) (here : String) (o : Options) (roots : List String) : Except RootFault Haul := do
  let found ← roots.mapM fun root => return (root, ← findRoot top root)
  if found.isEmpty then return {}
  else if o.maxFiles == some 0 then return { ledger := Ledger.enterSkip {} .overFileBudget }
  else return Haul.ofEvents o {} (allEvents top here o found)

end DuplicateBlocks.Discovery
