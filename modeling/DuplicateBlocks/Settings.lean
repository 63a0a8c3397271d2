import DuplicateBlocks.Code.Canonical
import DuplicateBlocks.Exclusion
import DuplicateBlocks.Number.Binary64

namespace DuplicateBlocks

structure Settings where
  minLines : Nat := 10
  -- The least similarity in percent.
  threshold : Binary64 := .finite false (80 * Binary64.unit)
  maxBlocks : Nat := 10000
  maxComparisons : Nat := 1000000
  code : Code.Limits := { contentBytes := 1024 * 1024, names := 1000, nameLength := 256 }
  excluded : Exclusion := {}

namespace Settings

-- The lines of a window: at least one.
def window (s : Settings) : Nat :=
  max 1 s.minLines

end Settings
end DuplicateBlocks
