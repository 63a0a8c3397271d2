import DuplicateBlocks.Number.Binary64

namespace DuplicateBlocks

inductive Json.Number where
  | natural (n : Nat)
  -- The integer `-(n + 1)`.
  | negative (n : Nat)
  | real (x : Binary64)
  deriving DecidableEq, Repr

inductive Json where
  | null
  | bool (b : Bool)
  | number (n : Json.Number)
  | string (s : String)
  | array (items : List Json)
  | object (fields : List (String × Json))
  deriving Repr

namespace Json

def nat (n : Nat) : Json :=
  number (.natural n)

-- The nearest binary64 number.
def Number.toBinary64 : Number → Binary64
  | natural n => .ofNat n
  | negative n => .ofRatio true (n + 1) 1
  | real x => x

def isNull : Json → Bool
  | null => true
  | _ => false

def string? : Json → Option String
  | string s => some s
  | _ => none

mutual

-- A value with the fields of all its objects in the order of their names.
def sorted : Json → Json
  | array items => array (sortedItems items)
  | object fields => object ((sortedFields fields).mergeSort fun a b => a.1 ≤ b.1)
  | v => v

def sortedItems : List Json → List Json
  | [] => []
  | v :: vs => v.sorted :: sortedItems vs

def sortedFields : List (String × Json) → List (String × Json)
  | [] => []
  | (k, v) :: fs => (k, v.sorted) :: sortedFields fs

end

end Json
end DuplicateBlocks
