import DuplicateBlocks.Glob.Basic
import DuplicateBlocks.Text.Digest

namespace DuplicateBlocks.Glob

inductive Expression where
  | byte (b : UInt8)
  | anyByte
  -- One byte of some ranges, or one of none of them.
  | set (negated : Bool) (ranges : List (UInt8 × UInt8))
  | optional (e : Expression)
  | many (e : Expression)
  -- Expressions one after the other.
  | sequence (parts : List Expression)
  -- One of several expressions, in brackets.
  | group (branches : List Expression)
  deriving Repr

namespace Expression

def slash : Expression := byte Glob.slash

def notSlash : Expression := set true [(Glob.slash, Glob.slash)]

-- A level more for parts that come together; a part on its own needs none.
def level (parts : List Expression) : Nat :=
  if parts.length ≤ 1 then 0 else 1

mutual

def depth : Expression → Nat
  | byte _ => 0
  | anyByte => 0
  | set _ ranges => if ranges.length ≤ 1 then 1 else 2
  | optional e => e.depth + 1
  | many e => e.depth + 1
  | sequence parts => depthOfAll parts + level parts
  | group branches => depthOfAll branches + level branches + 1

def depthOfAll : List Expression → Nat
  | [] => 0
  | e :: es => max e.depth (depthOfAll es)

end

-- Bytes that mean something else if they are not escaped.
def isSpecial (b : UInt8) : Bool :=
  "\\.+*?()|[]\x7b\x7d^$#&-~".toList.contains (Char.ofNat b.toNat)

def byteText (b : UInt8) : List Char :=
  if 0x80 ≤ b then '\\' :: 'x' :: Text.Digest.hexDigits 2 b.toNat
  else if isSpecial b then ['\\', Char.ofNat b.toNat]
  else [Char.ofNat b.toNat]

def rangeText (range : UInt8 × UInt8) : List Char :=
  if range.1 == range.2 then byteText range.1 else byteText range.1 ++ '-' :: byteText range.2

mutual

def text : Expression → List Char
  | byte b => byteText b
  | anyByte => ['.']
  | set negated ranges => '[' :: ((if negated then ['^'] else []) ++ ranges.flatMap rangeText ++ [']'])
  | optional e => e.text ++ ['?']
  | many e => e.text ++ ['*']
  | sequence parts => (textsOfAll parts).flatten
  | group branches => "(?:".toList ++ List.intercalate ['|'] (textsOfAll branches) ++ [')']

def textsOfAll : List Expression → List (List Char)
  | [] => []
  | e :: es => e.text :: textsOfAll es

end

end Expression

mutual

def Token.parts : Token → List Expression
  | .literal c => (String.utf8EncodeChar c).map .byte
  | .any => [.notSlash]
  | .star => [.many .notSlash]
  | .leading => [.group [.optional .slash, .sequence [.many .anyByte, .slash]]]
  | .trailing => [.slash, .many .anyByte]
  | .between => [.group [.slash, .sequence [.slash, .many .anyByte, .slash]]]
  | .oneOf negated ranges => [.set negated (ranges.flatMap byteRanges)]
  | .choice branches => if branches.isEmpty then [] else [.group (branchesOf branches)]

def partsOf : List Token → List Expression
  | [] => []
  | t :: ts => t.parts ++ partsOf ts

def branchesOf : List (List Token) → List Expression
  | [] => []
  | b :: bs => .sequence (partsOf b) :: branchesOf bs

end

-- The expressions between the two ends of a path.
def body : List Token → List Expression
  | [.leading] => [.many .anyByte]
  | glob => partsOf glob

-- A glob written as an expression on the whole of a path.
def expressionText (glob : List Token) : String :=
  "(?-u)^" ++ String.ofList (Expression.sequence (body glob)).text ++ "$"

-- How deep the expression for a glob nests: all of it comes between the two ends, so its parts are one level
-- down.
def nesting (glob : List Token) : Nat :=
  Expression.depthOfAll (body glob) + 1

-- Expressions that nest deeper than this are refused.
def maxNesting : Nat := 250

def isTooDeep (glob : List Token) : Bool :=
  maxNesting < nesting glob

end DuplicateBlocks.Glob
