import DuplicateBlocks.Json.Value

namespace DuplicateBlocks.Options

-- The options, in the order in which a list of values gives them.
inductive Key where
  | minLines
  | threshold
  | excludePatterns
  | maxBlocks
  | maxComparisons
  | maxContentBytes
  | maxNames
  | maxNameLength
  deriving DecidableEq, Repr

namespace Key

def all : List Key :=
  [minLines, threshold, excludePatterns, maxBlocks, maxComparisons, maxContentBytes, maxNames, maxNameLength]

def name : Key → String
  | minLines => "minLines"
  | threshold => "threshold"
  | excludePatterns => "excludePatterns"
  | maxBlocks => "maxBlocks"
  | maxComparisons => "maxComparisons"
  | maxContentBytes => "maxContentBytesForNormalization"
  | maxNames => "maxIdentifiersTracked"
  | maxNameLength => "maxIdentifierLength"

def ofName? (s : String) : Option Key :=
  if s == "minBlockLines" then some minLines
  else if s == "minSimilarityPercent" then some threshold
  else if s == "excludedPathPatterns" then some excludePatterns
  else all.find? (·.name == s)

end Key

structure Raw where
  minLines : Option Json := none
  threshold : Option Json := none
  excludePatterns : Option Json := none
  maxBlocks : Option Json := none
  maxComparisons : Option Json := none
  maxContentBytes : Option Json := none
  maxNames : Option Json := none
  maxNameLength : Option Json := none

namespace Raw

-- The options given by a list of keys and values, of which null stands for none.
def ofFields (fields : List (Key × Json)) : Raw :=
  let get (k : Key) : Option Json := ((fields.find? (·.1 == k)).map Prod.snd).filter (!·.isNull)
  { minLines := get .minLines
    threshold := get .threshold
    excludePatterns := get .excludePatterns
    maxBlocks := get .maxBlocks
    maxComparisons := get .maxComparisons
    maxContentBytes := get .maxContentBytes
    maxNames := get .maxNames
    maxNameLength := get .maxNameLength }

-- The patterns of a file with those of the flags after them. Anything but a list gives way to the flags.
def joinPatterns : Option Json → Option Json → Option Json
  | some (.array file), some (.array flags) => some (.array (file ++ flags))
  | file, none => file
  | _, flags => flags

def overlay (file flags : Raw) : Raw where
  minLines := flags.minLines <|> file.minLines
  threshold := flags.threshold <|> file.threshold
  excludePatterns := joinPatterns file.excludePatterns flags.excludePatterns
  maxBlocks := flags.maxBlocks <|> file.maxBlocks
  maxComparisons := flags.maxComparisons <|> file.maxComparisons
  maxContentBytes := flags.maxContentBytes <|> file.maxContentBytes
  maxNames := flags.maxNames <|> file.maxNames
  maxNameLength := flags.maxNameLength <|> file.maxNameLength

end Raw
end DuplicateBlocks.Options
