import DuplicateBlocks.Text.Pieces

namespace DuplicateBlocks.Path

inductive Component where
  | root
  | here
  | up
  | name (n : String)
  deriving DecidableEq, Repr

def segments (p : String) : List String :=
  (Text.pieces (· == '/') p.toList).map String.ofList

def joinSegments (segs : List String) : String :=
  String.intercalate "/" segs

def isAbsolute (p : String) : Bool :=
  p.toList.head? == some '/'

-- Segments that are no component inside a path.
def isNoise (seg : String) : Bool :=
  seg == "" || seg == "."

def segmentComponent? (seg : String) : Option Component :=
  if isNoise seg then none else if seg == ".." then some .up else some (.name seg)

theorem segmentComponent?_of_isNoise {seg : String} (h : isNoise seg = true) : segmentComponent? seg = none := by
  simp [segmentComponent?, h]

theorem segmentComponent?_eq_name {seg : String} (hn : isNoise seg = false) (hu : seg ≠ "..") :
    segmentComponent? seg = some (.name seg) := by
  simp [segmentComponent?, hn, hu]

-- The start of a path that is a component of its own, and the segments after it.
structure Parts where
  start : Option Component
  body : List String
  deriving DecidableEq, Repr

def parts (p : String) : Parts :=
  match segments p with
  | "" :: seg :: segs => ⟨some .root, seg :: segs⟩
  | "." :: segs => ⟨some .here, segs⟩
  | segs => ⟨none, segs⟩

namespace Parts

def text (ps : Parts) : String :=
  match ps.start with
  | some .root => "/" ++ joinSegments ps.body
  | some .here => joinSegments ("." :: ps.body)
  | _ => joinSegments ps.body

def components (ps : Parts) : List Component :=
  ps.start.toList ++ ps.body.filterMap segmentComponent?

-- Parts without the segments at the end that are no components.
def trimEnd (ps : Parts) : Parts :=
  { ps with body := (ps.body.reverse.dropWhile isNoise).reverse }

end Parts

def components (p : String) : List Component :=
  (parts p).components

-- The last component, if it is a name.
def fileName? (p : String) : Option String :=
  match (components p).getLast? with
  | some (.name n) => some n
  | _ => none

-- What stands after the last dot of the file name; a dot at its front does not count.
def extension? (p : String) : Option String :=
  (fileName? p).bind fun n =>
    let back := n.toList.reverse
    match back.dropWhile (· != '.') with
    | _ :: _ :: _ => some (String.ofList (back.takeWhile (· != '.')).reverse)
    | _ => none

-- A path taken from another one: an absolute path stands for itself.
def join (base p : String) : String :=
  if isAbsolute p || base == "" then p
  else if base.toList.getLast? == some '/' then base ++ p
  else base ++ "/" ++ p

-- The paths above a path, from the bottom up, as texts cut off behind a component.
def ancestors (p : String) : List String :=
  let ps := parts p
  let ends := (List.range ps.body.length).filter fun i => !(ps.body[i]?.all isNoise)
  let inner := ends.dropLast.reverse.map fun i => (Parts.mk ps.start (ps.body.take (i + 1))).text
  let top : List String := match ps.start with
    | some .root => ["/"]
    | some .here => [".", ""]
    | _ => [""]
  if ends.isEmpty then top.drop 1 else inner ++ top

def dropComponents : Nat → List String → List String
  | 0, segs => segs
  | n + 1, segs => dropComponents n ((segs.dropWhile isNoise).drop 1)

-- What stands after `base` in a path whose components start with those of `base`.
def relativeTo? (p base : String) : Option String :=
  let ps := parts p
  let front := components base
  if !front.isPrefixOf ps.components then none
  else if front.isEmpty then some ps.trimEnd.text
  else
    let rest := dropComponents (front.length - ps.start.toList.length) ps.body
    some (Parts.mk none (rest.dropWhile isNoise)).trimEnd.text

-- A path without its last component. One with nothing above it stays as it is.
def parent (p : String) : String :=
  (ancestors p).head?.getD p

def advance (out : String) : Component → String
  | .root => join out "/"
  | .here => out
  | .up =>
    match (components out).getLast? with
    | none | some .root => out
    | _ => parent out
  | .name n => join out n

-- A path without `.` and `..`; the latter never climbs above the root.
def clean (p : String) : String :=
  (components p).foldl advance ""

end DuplicateBlocks.Path
