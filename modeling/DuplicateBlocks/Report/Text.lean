import DuplicateBlocks.Number.Decimal
import DuplicateBlocks.Report.Basic

namespace DuplicateBlocks.Report

def num (t : Tally) : String :=
  Nat.repr t.toNat

-- A line `- name=value` for each counter that is not zero.
def nonZero (items : List (String × Tally)) : String :=
  String.join ((items.filter fun (_, t) => t.toNat != 0).map fun (k, t) => "- " ++ k ++ "=" ++ num t ++ "\n")

def ledgerText (l : Discovery.Ledger) : String :=
  let skips := nonZero [("not_found", l.notFound), ("permission_denied", l.permissionDenied),
    ("too_large", l.tooLarge), ("binary", l.binary), ("excluded", l.excluded), ("outside_root", l.outsideRoot),
    ("walk_errors", l.walkErrors), ("budget_max_files", l.overFileBudget),
    ("budget_max_total_bytes", l.overByteBudget)]
  "files: candidates=" ++ num l.candidates ++ " scanned=" ++ num l.scanned ++ " bytes=" ++ num l.bytes ++ "\n" ++
    (if skips == "" then "" else "skipped:\n" ++ skips)

def countersText (c : Counters) : String :=
  "engine: units=" ++ num c.units ++ " excluded=" ++ num c.excludedUnits ++ " lines=" ++ num c.lines ++
    " windows=" ++ num c.windows ++ " blocks=" ++ num c.blocks ++ " buckets=" ++ num c.buckets ++
    " comparisons=" ++ num c.comparisons ++ "\n" ++
    nonZero [("sparse_windows", c.sparseWindows), ("overlapping_pairs", c.overlappingPairs),
      ("normalization_too_large", c.oversized), ("identifiers_untracked", c.untracked),
      ("identifiers_too_long", c.tooLong)] ++
    (if c.blocksTruncated then "- block ceiling reached; later sources were not scanned\n" else "") ++
    (if c.comparisonsTruncated then "- comparison ceiling reached; results are partial\n" else "")

def statsText (ledger : Option Discovery.Ledger) (c : Counters) : String :=
  "== scan stats ==\n" ++ (ledger.map ledgerText).getD "" ++ countersText c ++ "\n"

def Place.text (p : Place) : String :=
  "- " ++ p.path ++ ":" ++ Nat.repr p.first ++ "-" ++ Nat.repr p.last ++ "\n"

def Entry.percent (e : Entry) : String :=
  String.ofList (Decimal.wholeText e.lowest)

def Entry.text (e : Entry) : String :=
  let scope := if e.isSameFile then "same file" else Nat.repr e.fileCount ++ " files"
  "\nsimilarity>=" ++ e.percent ++ "% lines=" ++ Nat.repr e.lineCount ++ " occurrences=" ++
    Nat.repr e.members.length ++ " (" ++ scope ++ ")\n" ++
    String.join (e.members.map Place.text) ++
    String.join ((Text.lines e.preview.toList).map fun l => "  | " ++ String.ofList l ++ "\n")

def entriesText (es : List Entry) : String :=
  "duplicate blocks: " ++ Nat.repr es.length ++ "\n" ++ String.join (es.map Entry.text) ++ "\n"

end DuplicateBlocks.Report
