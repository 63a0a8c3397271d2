namespace DuplicateBlocks.Text.Utf8

def encode (cs : List Char) : List UInt8 :=
  cs.flatMap String.utf8EncodeChar

def byteCount (cs : List Char) : Nat :=
  cs.foldl (fun n c => n + c.utf8Size) 0

inductive State where
  | start
  -- Inside a character: the bytes owed, the value so far, and the range of the next byte.
  | within (owed value low high : Nat)
  deriving DecidableEq, Repr

-- The state after the first byte of a character of several bytes.
def lead? (b : Nat) : Option State :=
  if 0xC2 ≤ b ∧ b ≤ 0xDF then some (.within 1 (b - 0xC0) 0x80 0xBF)
  else if b = 0xE0 then some (.within 2 0 0xA0 0xBF)
  else if b = 0xED then some (.within 2 0xD 0x80 0x9F)
  else if 0xE1 ≤ b ∧ b ≤ 0xEF then some (.within 2 (b - 0xE0) 0x80 0xBF)
  else if b = 0xF0 then some (.within 3 0 0x90 0xBF)
  else if 0xF1 ≤ b ∧ b ≤ 0xF3 then some (.within 3 (b - 0xF0) 0x80 0xBF)
  else if b = 0xF4 then some (.within 3 4 0x80 0x8F)
  else none

-- A character read, or a defect. Read so far, latest first, with the state.
structure Reading where
  state : State := .start
  found : List (Option Char) := []

namespace Reading

def begin (found : List (Option Char)) (b : Nat) : Reading :=
  if b < 0x80 then ⟨.start, some (Char.ofNat b) :: found⟩
  else match lead? b with
    | some s => ⟨s, found⟩
    | none => ⟨.start, none :: found⟩

-- Reads a byte. One that cannot go on with the character under way ends it as a defect and is read
-- again as the start of the next.
def step (r : Reading) (byte : UInt8) : Reading :=
  let b := byte.toNat
  match r.state with
  | .start => begin r.found b
  | .within owed value low high =>
    if low ≤ b ∧ b ≤ high then
      let value := value * 64 + (b - 0x80)
      if owed ≤ 1 then ⟨.start, some (Char.ofNat value) :: r.found⟩
      else ⟨.within (owed - 1) value 0x80 0xBF, r.found⟩
    else begin (none :: r.found) b

def finish (r : Reading) : List (Option Char) :=
  match r.state with
  | .start => r.found.reverse
  | .within .. => (none :: r.found).reverse

end Reading

-- The characters of a byte sequence, `none` standing for each defect.
def scan (bytes : List UInt8) : List (Option Char) :=
  (bytes.foldl Reading.step {}).finish

def decode? (bytes : List UInt8) : Option (List Char) :=
  let found := scan bytes
  if found.all Option.isSome then some (found.filterMap id) else none

def replacement : Char := Char.ofNat 0xFFFD

def decodeLossy (bytes : List UInt8) : List Char :=
  (scan bytes).map (·.getD replacement)

end DuplicateBlocks.Text.Utf8
