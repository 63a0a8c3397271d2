import DuplicateBlocks.Tally

namespace DuplicateBlocks.Discovery

@[ext]
structure Ledger where
  candidates : Tally := 0
  scanned : Tally := 0
  bytes : Tally := 0
  notFound : Tally := 0
  permissionDenied : Tally := 0
  tooLarge : Tally := 0
  binary : Tally := 0
  excluded : Tally := 0
  outsideRoot : Tally := 0
  walkErrors : Tally := 0
  overFileBudget : Tally := 0
  overByteBudget : Tally := 0
  deriving DecidableEq

end DuplicateBlocks.Discovery
