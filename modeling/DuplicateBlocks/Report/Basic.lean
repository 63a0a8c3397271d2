import DuplicateBlocks.Discovery.Ledger
import DuplicateBlocks.Json.Value
import DuplicateBlocks.Scan

namespace DuplicateBlocks.Report

structure Place where
  path : String
  first : Nat
  last : Nat
  deriving DecidableEq, Repr

structure Entry where
  hash : String
  isSameFile : Bool
  fileCount : Nat
  lineCount : Nat
  lowest : Binary64
  preview : String
  members : List Place
  deriving DecidableEq, Repr

def previewLines : Nat := 3

def previewWidth : Nat := 120

def Entry.ofGroup (g : Group) : Entry where
  hash := Text.Digest.hex g.digest
  isSameFile := g.isSameFile
  fileCount := g.fileCount
  lineCount := g.root.lineCount
  lowest := g.lowest
  preview := String.ofList (Text.preview previewLines previewWidth g.root.raw)
  members := g.members.map fun b => ⟨b.source, b.first.toNat, b.last.toNat⟩

def Place.json (p : Place) : Json :=
  .object [("path", .string p.path), ("startLine", .nat p.first), ("endLine", .nat p.last)]

def Entry.json (e : Entry) : Json :=
  .object [("hash", .string e.hash), ("isSameFile", .bool e.isSameFile), ("fileCount", .nat e.fileCount),
    ("lineCount", .nat e.lineCount), ("minSimilarity", .number (.real e.lowest)), ("preview", .string e.preview),
    ("members", .array (e.members.map Place.json))]

def entriesJson (es : List Entry) : Json :=
  .array (es.map Entry.json)

def tallyJson (t : Tally) : Json :=
  .nat t.toNat

def countersJson (c : Counters) : Json :=
  .object [("sourceUnits", tallyJson c.units), ("excludedUnits", tallyJson c.excludedUnits),
    ("linesScanned", tallyJson c.lines), ("windowsConsidered", tallyJson c.windows),
    ("blocksRejectedSparse", tallyJson c.sparseWindows), ("blocksExtracted", tallyJson c.blocks),
    ("blocksTruncated", .bool c.blocksTruncated), ("buckets", tallyJson c.buckets),
    ("comparisons", tallyJson c.comparisons), ("comparisonsTruncated", .bool c.comparisonsTruncated),
    ("pairsSkippedOverlap", tallyJson c.overlappingPairs),
    ("normalizationSkippedTooLarge", tallyJson c.oversized), ("identifiersUntracked", tallyJson c.untracked),
    ("identifiersTooLong", tallyJson c.tooLong)]

def ledgerJson (l : Discovery.Ledger) : Json :=
  .object [("candidateFiles", tallyJson l.candidates), ("scannedFiles", tallyJson l.scanned),
    ("scannedBytes", tallyJson l.bytes), ("skippedNotFound", tallyJson l.notFound),
    ("skippedPermissionDenied", tallyJson l.permissionDenied), ("skippedTooLarge", tallyJson l.tooLarge),
    ("skippedBinary", tallyJson l.binary), ("skippedExcluded", tallyJson l.excluded),
    ("skippedOutsideRoot", tallyJson l.outsideRoot), ("skippedWalkErrors", tallyJson l.walkErrors),
    ("skippedBudgetMaxFiles", tallyJson l.overFileBudget),
    ("skippedBudgetMaxTotalBytes", tallyJson l.overByteBudget)]

def statsJson (ledger : Option Discovery.Ledger) (c : Counters) : Json :=
  .object ((ledger.toList.map fun l => ("discovery", ledgerJson l)) ++ [("engine", countersJson c)])

-- Groups and counters together, with all fields in the order of their names.
def fullJson (es : List Entry) (ledger : Option Discovery.Ledger) (c : Counters) : Json :=
  (Json.object [("groups", entriesJson es), ("scanStats", statsJson ledger c)]).sorted

end DuplicateBlocks.Report
