import DuplicateBlocks.Command.Run

namespace DuplicateBlocks.Survey

open DuplicateBlocks.Tree (Node)

def pathTo (position : List String) : String :=
  "/" ++ Path.joinSegments position

-- The fault that an error of the system is. All but two are counted alike, and not told apart.
def faultOf : IO.Error → Tree.Fault
  | .noFileOrDirectory .. => .notFound
  | .permissionDenied .. => .permissionDenied
  | _ => .notADirectory

-- What is known of the thing at a position, if it can be looked up.
def metadataAt (position : List String) : IO (Except Tree.Fault IO.FS.Metadata) := do
  let entry : IO.FS.DirEntry := { root := pathTo position.dropLast, fileName := position.getLastD "." }
  try
    return .ok (← entry.path.symlinkMetadata)
  catch e =>
    return .error (faultOf e)

def kindAt (position : List String) : IO (Except Tree.Fault IO.FS.FileType) := do
  return (← metadataAt position).map (·.type)

def chunkSize : USize := 16384

-- The bytes of an open file from where it stands. Nothing is read once they are more than a limit.
partial def readOn (handle : IO.FS.Handle) (limit : Option Nat) (read : ByteArray) : IO ByteArray := do
  if limit.any (· < read.size) then return read
  let chunk ← handle.read chunkSize
  if chunk.isEmpty then return read
  readOn handle limit (read ++ chunk)

-- A file with its bytes. One that cannot be opened has zeros in their place, as its size is known all the same.
def fileAt (position : List String) (limit : Option Nat) : IO Node := do
  try
    let handle ← IO.FS.Handle.mk (pathTo position) .read
    return .file (← readOn handle limit .empty).toList
  catch e =>
    let size := (← metadataAt position).toOption.elim 0 (·.byteSize.toNat)
    return .file (List.replicate (limit.elim size fun most => min size (most + 1)) 0) (some (faultOf e))

def namesAt (position : List String) : IO (Except Tree.Fault (List String)) := do
  let entry : IO.FS.DirEntry := { root := pathTo position, fileName := "." }
  try
    return .ok ((← entry.path.readDir).toList.map (·.fileName))
  catch e =>
    return .error (faultOf e)

-- A directory with all that a search may come to read. Where nothing can be looked up, all names are taken for those of
-- files.
partial def directoryAt (o : Discovery.Options) (position : List String) : IO Node := do
  match ← namesAt position with
  | .error fault => return .directory [] { list? := some fault }
  | .ok names =>
    let mut entries : List (String × Node) := []
    let mut bars : Tree.Bars := {}
    for name in names do
      let here := position ++ [name]
      match ← kindAt here with
      | .ok .dir =>
        let node ← if o.ignoredDirectories.contains name then pure .empty else directoryAt o here
        entries := (name, node) :: entries
      | .ok .file =>
        let node ← if o.wants name then fileAt here o.maxFileSize else pure (.file [])
        entries := (name, node) :: entries
      | .error .permissionDenied =>
        bars := { search? := some .permissionDenied }
        entries := (name, .file []) :: entries
      | _ => entries := (name, .link name) :: entries
    return .directory entries bars

-- Puts on the map what segments lead through from a position, and tells where they end. A link is kept with
-- the place it leads to in the end; one that leads nowhere keeps leading nowhere.
partial def chart (limit : Option Nat) (top : Node) (here : List String) :
    List String → IO (Node × Option (List String))
  | [] => return (top, some here)
  | seg :: rest => do
    if Path.isNoise seg then chart limit top here rest
    else if seg == ".." then chart limit top here.dropLast rest
    else
      let next := here ++ [seg]
      match ← kindAt next with
      | .error .permissionDenied =>
        return ((Node.directory [] { search? := some .permissionDenied }).put here top, none)
      | .error _ => return (top, none)
      | .ok .file => chart limit ((← fileAt next limit).put next top) next rest
      | .ok .symlink =>
        let target ← try
            pure (some (← IO.FS.realPath (pathTo next)).toString)
          catch _ => pure none
        match target with
        | none => return ((Node.link "/ ").put next top, none)
        | some target => chart limit ((Node.link target).put next top) [] (Path.segments target ++ rest)
      | .ok _ => chart limit (Node.empty.put next top) next rest

def addFiles (limit : Option Nat) (top : Node) (paths : List String) : IO Node := do
  let mut top := top
  for path in paths do
    top := (← chart limit top [] (Path.segments path)).1
  return top

partial def directoriesOn (position : List String) : Node → List (List String)
  | .directory entries _ => position :: entries.flatMap fun (name, node) => directoriesOn (position ++ [name]) node
  | _ => []

-- Puts on the map the files with the rules of a directory, wherever its repository is kept.
def addRules (here : String) (top : Node) (directory : String) : IO Node := do
  let own := Path.join directory Discovery.repository
  let mut top ← addFiles none top [Path.join directory Discovery.ignoreFile, own]
  if let .ok bytes := Tree.contents top own then
    if let .ok (some linked) := Discovery.pointed? bytes then
      top ← addFiles none top [Path.join here (Path.join linked Discovery.sharedFile)]
  if let .ok (some found) := Discovery.repositoryOf top here directory then
    top ← addFiles none top [Path.join found Discovery.weakIgnoreFile]
  return top

-- Puts roots on the map, and the rules of all directories that are then on it. A root inside another one
-- comes after it.
def addRoots (here : String) (o : Discovery.Options) (top : Node) (paths : List String) : IO Node := do
  let mut top := top
  let mut directories : List (List String) := []
  for path in paths do
    let (seen, position) ← chart o.maxFileSize top [] (Path.segments path)
    top := seen
    if let some position := position then
      if (← kindAt position) matches .ok .dir then directories := position :: directories
  for position in directories.mergeSort fun a b => a.length ≤ b.length do
    top := (← directoryAt o position).put position top
  if o.respectIgnoreFiles then
    for position in directoriesOn [] top do
      top ← addRules here top (pathTo position)
  return top

partial def readInput (read : ByteArray) : IO ByteArray := do
  let chunk ← (← IO.getStdin).read chunkSize
  if chunk.isEmpty then return read
  readInput (read ++ chunk)

-- Where the user's own ignore rules are kept, if no other place is configured.
def globalIgnoreFile : IO (Option String) := do
  let settings := (← IO.getEnv "XDG_CONFIG_HOME").filter (· != "")
  let home ← IO.getEnv "HOME"
  return (settings <|> home.map (Path.join · ".config")).map (Path.join · "git/ignore")

-- The world around an invocation. The file of options comes last, so that its bytes are on the map also if
-- it lies below a root.
def worldOf (directory : String) (i : Command.Invocation) : IO Command.World := do
  let o := i.discovery {}
  let fromHere (path : String) : String := Path.join directory path
  let addOptions (top : Node) : IO Node := addFiles (some Options.maxFileBytes) top (i.config.toList.map fromHere)
  let top ← addFiles none .empty [directory]
  match i.mode with
  | .rule file => return { top := ← addOptions (← addFiles o.maxFileSize top [fromHere file]), directory }
  | .roots =>
    let rules := (← globalIgnoreFile).map fromHere
    let top ← addFiles none (← addRoots directory o top (i.roots.map fromHere)) rules.toList
    return { top := ← addOptions top, directory, globalIgnoreFile := rules }
  | .staged =>
    let listing ← readInput .empty
    let usual : Discovery.Ending := { status := some 0, output := listing.toList, errors := [] }
    let staged := Discovery.listedPaths usual.output
    let top ← addOptions (← addFiles o.maxFileSize top (staged.map fromHere))
    return { top, directory, tools := { usual := some usual } }

end DuplicateBlocks.Survey

open DuplicateBlocks in
def main (args : List String) : IO UInt32 := do
  let directory := (← IO.currentDir).toString
  let world ← match Command.Request.ofArguments args with
    | .ok (.run i) => Survey.worldOf directory i
    | _ => pure { top := .empty, directory }
  let result := Command.run world args
  for warning in result.log do
    IO.eprintln ("WARN " ++ warning.message)
  IO.print result.output
  IO.eprint result.errors
  return result.exit.toUInt32
