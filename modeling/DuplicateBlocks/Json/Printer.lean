import DuplicateBlocks.Json.Value
import DuplicateBlocks.Number.Decimal
import DuplicateBlocks.Text.Digest

namespace DuplicateBlocks.Json

def escapeChar (c : Char) : List Char :=
  if c == '"' then ['\\', '"']
  else if c == '\\' then ['\\', '\\']
  else if c == '\n' then ['\\', 'n']
  else if c == '\r' then ['\\', 'r']
  else if c == '\t' then ['\\', 't']
  else if c.toNat == 8 then ['\\', 'b']
  else if c.toNat == 12 then ['\\', 'f']
  else if c.toNat < 0x20 then '\\' :: 'u' :: Text.Digest.hexDigits 4 c.toNat
  else [c]

def quoted (s : String) : List Char :=
  '"' :: s.toList.flatMap escapeChar ++ ['"']

-- Numbers have at least one place after the point; an exponent is written below 10^-5 and from 10^16 on,
-- always with its sign, and a tie goes to the even digit.
def realLayout : Decimal.Layout where
  tie := .even
  positional p := -5 < p && p ≤ 16
  pointZero := true
  exponentSign := ['+']

def numberText : Number → List Char
  | .natural n => Decimal.digitChars n
  | .negative n => '-' :: Decimal.digitChars (n + 1)
  | .real (.finite s u) => realLayout.render s u
  | .real _ => "null".toList

def newLine (depth : Nat) : List Char :=
  '\n' :: List.replicate (2 * depth) ' '

-- Items one to a line between two brackets; nothing stands between them if there are none.
def enclose (left right : Char) (depth : Nat) (items : List (List Char)) : List Char :=
  if items.isEmpty then [left, right]
  else
    left :: (List.intercalate [','] (items.map (newLine (depth + 1) ++ ·)) ++ newLine depth ++ [right])

mutual

def pretty (depth : Nat) : Json → List Char
  | null => "null".toList
  | bool b => (if b then "true" else "false").toList
  | number n => numberText n
  | string s => quoted s
  | array items => enclose '[' ']' depth (prettyItems (depth + 1) items)
  | object fields => enclose '\x7b' '\x7d' depth (prettyFields (depth + 1) fields)

def prettyItems (depth : Nat) : List Json → List (List Char)
  | [] => []
  | v :: vs => pretty depth v :: prettyItems depth vs

def prettyFields (depth : Nat) : List (String × Json) → List (List Char)
  | [] => []
  | (k, v) :: fs => (quoted k ++ ':' :: ' ' :: pretty depth v) :: prettyFields depth fs

end

def render (v : Json) : String :=
  String.ofList (pretty 0 v)

end DuplicateBlocks.Json
