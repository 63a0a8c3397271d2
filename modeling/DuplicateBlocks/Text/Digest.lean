import DuplicateBlocks.Text.Utf8

namespace DuplicateBlocks.Text.Digest

def basis : UInt64 := 0xcbf29ce484222325

def prime : UInt64 := 0x100000001b3

def mix (h : UInt64) (b : UInt8) : UInt64 :=
  (h ^^^ b.toUInt64) * prime

def ofBytes (bytes : List UInt8) : UInt64 :=
  bytes.foldl mix basis

def ofText (cs : List Char) : UInt64 :=
  ofBytes (Utf8.encode cs)

def hexDigit (n : Nat) : Char :=
  if n < 10 then Char.ofNat ('0'.toNat + n) else Char.ofNat ('a'.toNat + (n - 10))

-- The `width` lowest hexadecimal digits of a number, the highest first.
def hexDigits (width n : Nat) : List Char :=
  ((List.range width).map fun i => hexDigit (n / Nat.pow 16 i % 16)).reverse

def hex (h : UInt64) : String :=
  String.ofList (hexDigits 16 h.toNat)

end DuplicateBlocks.Text.Digest
