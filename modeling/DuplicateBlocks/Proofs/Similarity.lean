import DuplicateBlocks.Similarity
import Mathlib.Data.List.Zip

namespace DuplicateBlocks.Similarity

open Text

theorem matching_comm (a b : List Char) : matching a b = matching b a := by
  rw [matching, ← List.zip_swap, List.countP_map, matching]
  refine List.countP_congr fun (x, y) _ => ?_
  change (y == x) = true ↔ (x == y) = true
  rw [BEq.comm]

theorem longest_comm (a b : List Char) : longest a b = longest b a :=
  Nat.max_comm ..

theorem score_comm (a b : List Char) : score a b = score b a := by
  rw [score, score, matching_comm, longest_comm, Bool.and_comm, BEq.comm]

end DuplicateBlocks.Similarity
