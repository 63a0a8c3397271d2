import DuplicateBlocks.Number.Decimal
import DuplicateBlocks.Options.Raw
import DuplicateBlocks.Settings

namespace DuplicateBlocks.Options

inductive Warning where
  | notANumber (key : Key) (fallback : Nat)
  | belowOne (key : Key) (value : Binary64)
  | aboveMost (key : Key) (value : Binary64) (most : Nat)
  | outsidePercent (key : Key) (value : Binary64)
  | rejectedPattern (r : Rejection)
  | notAList (key : Key)
  | notPositive (key : Key) (fallback : Nat)
  deriving DecidableEq, Repr

-- Numbers in warnings are written in full, without an exponent.
def plainLayout : Decimal.Layout where
  tie := .up
  positional _ := true
  pointZero := false

def numberText (x : Binary64) : String :=
  String.ofList (plainLayout.write x)

def Warning.message : Warning → String
  | notANumber k n => k.name ++ " is not a number; using " ++ Nat.repr n
  | belowOne k x => k.name ++ " " ++ numberText x ++ " is below 1; clamping"
  | aboveMost k x n => k.name ++ " " ++ numberText x ++ " exceeds " ++ Nat.repr n ++ "; clamping"
  | outsidePercent k x => k.name ++ " " ++ numberText x ++ " is outside 0..100; clamping"
  | rejectedPattern r => Key.excludePatterns.name ++ ": " ++ r.message
  | notAList k => k.name ++ " is not a list; ignoring it"
  | notPositive k n => k.name ++ " must be a positive integer; using " ++ Nat.repr n

def number? (v : Json) : Option Binary64 :=
  let x := match v with
    | .number n => some n.toBinary64
    | .string s => Decimal.readBinary64? (Text.trim s.toList)
    | _ => none
  x.filter Binary64.isFinite

abbrev Resolved (α : Type) := α × List Warning

def maxMinLines : Nat := 1000

def minLines (default : Nat) : Option Json → Resolved Nat
  | none => (default, [])
  | some v => match number? v with
    | none => (default, [.notANumber .minLines default])
    | some x =>
      let x := x.floor
      if x.lt (.ofNat 1) then (1, [.belowOne .minLines x])
      else if (Binary64.ofNat maxMinLines).lt x then (maxMinLines, [.aboveMost .minLines x maxMinLines])
      else (x.wholePart, [])

def threshold (default : Nat) : Option Json → Resolved Binary64
  | none => (.ofNat default, [])
  | some v => match number? v with
    | none => (.ofNat default, [.notANumber .threshold default])
    | some x =>
      let inside := Binary64.zero.le x && x.le .hundred
      (x.clamp .zero .hundred, if inside then [] else [.outsidePercent .threshold x])

-- A ceiling: a number from one on, without its fraction; those beyond 64 bits stand at the greatest.
def ceiling (key : Key) (default : Nat) : Option Json → Resolved Nat
  | none => (default, [])
  | some v => match (number? v).filter (Binary64.ofNat 1).le with
    | none => (default, [.notPositive key default])
    | some x => (min x.wholePart 0xFFFFFFFFFFFFFFFF, [])

-- The exclusion by a list of values. Values that are no strings are rejected before all others.
def exclusion : Option Json → Resolved Exclusion
  | none | some .null => ({}, [])
  | some (.array items) =>
    let strangers := items.zipIdx.filterMap fun (v, i) =>
      if v.string?.isNone then some (Rejection.notAString i) else none
    let (e, rejections) := Exclusion.ofPatterns (items.filterMap Json.string?)
    (e, (strangers ++ rejections).map .rejectedPattern)
  | some _ => ({}, [.notAList .excludePatterns])

def Raw.resolve (raw : Raw) : Resolved Settings :=
  let defaults : Settings := {}
  let lines := Options.minLines defaults.minLines raw.minLines
  let percent := Options.threshold 80 raw.threshold
  let excluded := exclusion raw.excludePatterns
  let blocks := ceiling .maxBlocks defaults.maxBlocks raw.maxBlocks
  let comparisons := ceiling .maxComparisons defaults.maxComparisons raw.maxComparisons
  let contentBytes := ceiling .maxContentBytes defaults.code.contentBytes raw.maxContentBytes
  let names := ceiling .maxNames defaults.code.names raw.maxNames
  let nameLength := ceiling .maxNameLength defaults.code.nameLength raw.maxNameLength
  ({ minLines := lines.1
     threshold := percent.1
     maxBlocks := blocks.1
     maxComparisons := comparisons.1
     code := { contentBytes := contentBytes.1, names := names.1, nameLength := nameLength.1 }
     excluded := excluded.1 },
   lines.2 ++ percent.2 ++ excluded.2 ++ blocks.2 ++ comparisons.2 ++ contentBytes.2 ++ names.2 ++ nameLength.2)

end DuplicateBlocks.Options
