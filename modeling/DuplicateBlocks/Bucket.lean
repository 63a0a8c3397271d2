import DuplicateBlocks.Block
import Std.Data.HashMap

namespace DuplicateBlocks

structure Bucket where
  fingerprint : List Char
  blocks : List Block
  deriving DecidableEq

namespace Bucket

-- Buckets under way: the slot of each fingerprint, and the blocks in each slot.
structure Shelf where
  slots : Std.HashMap String Nat := {}
  found : Array (List Char × Array Block) := #[]

def Shelf.put (s : Shelf) (b : Block) : Shelf :=
  let key := String.ofList b.fingerprint
  match s.slots[key]? with
  | some i => { s with found := s.found.modify i fun (k, bs) => (k, bs.push b) }
  | none => { slots := s.slots.insert key s.found.size, found := s.found.push (b.fingerprint, #[b]) }

def ofBlocks (bs : List Block) : List Bucket :=
  ((bs.foldl Shelf.put {}).found.toList.filter fun (_, bs) => 2 ≤ bs.size).map fun (k, bs) => ⟨k, bs.toList⟩

end Bucket
end DuplicateBlocks
