import DuplicateBlocks.Json.Number
import DuplicateBlocks.Text.Utf8

namespace DuplicateBlocks.Json

def isSpace (c : Char) : Bool :=
  c == ' ' || c == '\n' || c == '\t' || c == '\r'

def skipSpace (cs : List Char) : List Char :=
  cs.dropWhile isSpace

theorem length_lt_of_skipSpace {cs rest : List Char} {c : Char} (h : skipSpace cs = c :: rest) :
    rest.length < cs.length := by
  have := (List.dropWhile_sublist isSpace (l := cs)).length_le
  simp only [skipSpace] at h
  simp only [h, List.length_cons] at this
  omega

def hexDigit? (c : Char) : Option Nat :=
  if c.isDigit then some (c.toNat - '0'.toNat)
  else if 'a' ≤ c ∧ c ≤ 'f' then some (c.toNat - 'a'.toNat + 10)
  else if 'A' ≤ c ∧ c ≤ 'F' then some (c.toNat - 'A'.toNat + 10)
  else none

-- The value of four hexadecimal digits. A text of fewer than four bytes is cut short.
def readHex (cs : List Char) : Except Fault Nat :=
  if Text.Utf8.byteCount (cs.take 4) < 4 then .error .cutShort
  else match (cs.take 4).mapM hexDigit? with
    | some [a, b, c, d] => .ok (((a * 16 + b) * 16 + c) * 16 + d)
    | _ => .error .malformed

def pairChar (high low : Nat) : Char :=
  Char.ofNat ((high - 0xD800) * 0x400 + (low - 0xDC00) + 0x10000)

-- Reads the second half of a surrogate pair, which must follow the first.
def readLowSurrogate (high : Nat) (cs : List Char) : Except Fault (Char × Nat) :=
  match cs with
  | [] | ['\\'] => .error .cutShort
  | '\\' :: 'u' :: rest => do
    let low ← readHex rest
    if 0xDC00 ≤ low ∧ low ≤ 0xDFFF then return (pairChar high low, 11) else .error .malformed
  | _ => .error .malformed

-- Reads what follows a backslash. Gives how many characters it took.
def readEscape (care : Care) (cs : List Char) : Except Fault (Char × Nat) :=
  match cs with
  | [] => .error .cutShort
  | 'u' :: rest => do
    let n ← readHex rest
    if care == .loose then return (' ', 5)
    else if 0xDC00 ≤ n ∧ n ≤ 0xDFFF then .error .malformed
    else if 0xD800 ≤ n ∧ n ≤ 0xDBFF then readLowSurrogate n (rest.drop 4)
    else return (Char.ofNat n, 5)
  | c :: _ =>
    if c == '"' || c == '\\' || c == '/' then .ok (c, 1)
    else if c == 'b' then .ok (Char.ofNat 8, 1)
    else if c == 'f' then .ok (Char.ofNat 12, 1)
    else if c == 'n' then .ok ('\n', 1)
    else if c == 'r' then .ok ('\r', 1)
    else if c == 't' then .ok ('\t', 1)
    else .error .malformed

-- Reads a string after its opening quote, with the characters found so far, the latest first, and how many
-- characters of text they took. Gives how many the string took in all.
def readString (care : Care) (found : List Char) (taken : Nat) (cs : List Char) : Except Fault (String × Nat) :=
  match cs with
  | [] => .error .cutShort
  | '"' :: _ => .ok (String.ofList found.reverse, taken + 1)
  | '\\' :: rest =>
    match readEscape care rest with
    | .error e => .error e
    | .ok (c, n) => readString care (c :: found) (taken + 1 + n) (rest.drop n)
  | c :: rest => if c.toNat < 0x20 then .error .malformed else readString care (c :: found) (taken + 1) rest
termination_by cs.length
decreasing_by all_goals simp only [List.length_cons, List.length_drop]; omega

def readWord : List Char → List Char → Except Fault Unit
  | [], _ => .ok ()
  | _ :: _, [] => .error .cutShort
  | w :: ws, c :: cs => if c == w then readWord ws cs else .error .malformed

-- Reads a value that is neither array nor object, from its first character `c` on. Gives how many characters
-- it took after that.
def readScalar (care : Care) (c : Char) (rest : List Char) : Except Fault (Json × Nat) :=
  let word (v : Json) (w : String) : Except Fault (Json × Nat) :=
    (readWord w.toList rest).map fun _ => (v, w.length)
  if c == 'n' then word .null "ull"
  else if c == 't' then word (.bool true) "rue"
  else if c == 'f' then word (.bool false) "alse"
  else if c == '"' then (readString care [] 0 rest).map fun (s, n) => (.string s, n)
  else if c == '-' then (readNumber care true rest).map fun (x, n) => (.number x, n)
  else if c.isDigit then (readNumber care false (c :: rest)).map fun (x, n) => (.number x, n - 1)
  else .error .malformed

-- The deepest nesting of brackets in a value that is wanted, the outermost ones included.
def maxDepth : Nat := 127

-- An array or object under way, the latest item first.
inductive Frame where
  | array (items : List Json)
  | object (fields : List (String × Json)) (key : String)

inductive Expect where
  | value
  -- A value, or the end of an array just opened.
  | firstItem
  | key
  -- A key, or the end of an object just opened.
  | firstKey
  | colon (key : String)
  -- What follows a finished value.
  | next (v : Json)

structure Machine where
  depth : Nat
  expect : Expect := .value
  -- The fields of the object whose key is read.
  fields : List (String × Json) := []
  frames : List Frame := []

-- The fields of an object in the order of their names, the latest of each name.
def lastOfEach (fields : List (String × Json)) : List (String × Json) :=
  let sorted := fields.reverse.mergeSort fun a b => a.1 ≤ b.1
  sorted.foldr (fun f later => match later with
    | g :: _ => if f.1 == g.1 then later else f :: later
    | [] => [f]) []

namespace Machine

def close (s : Machine) (v : Json) (frames : List Frame) : Machine :=
  { s with depth := s.depth - 1, expect := .next v, frames }

def openBracket (care : Care) (s : Machine) (expect : Expect) : Except Fault Machine :=
  if care == .strict && maxDepth ≤ s.depth then .error .malformed
  else .ok { s with depth := s.depth + 1, expect, fields := [] }

def start (care : Care) (s : Machine) (c : Char) (rest : List Char) : Except Fault (Machine × Nat) :=
  if c == '[' then (s.openBracket care .firstItem).map fun s => ({ s with frames := .array [] :: s.frames }, 0)
  else if c == '\x7b' then (s.openBracket care .firstKey).map (·, 0)
  else (readScalar care c rest).map fun (v, n) => ({ s with expect := .next v }, n)

def startKey (care : Care) (s : Machine) (c : Char) (rest : List Char) : Except Fault (Machine × Nat) :=
  if c == '"' then
    (readString care [] 0 rest).map fun (k, n) => ({ s with expect := .colon k }, n)
  else .error .malformed

-- Reads on from the character `c`. Gives how many characters after it were taken.
def step (care : Care) (s : Machine) (c : Char) (rest : List Char) : Except Fault (Machine × Nat) :=
  match s.expect with
  | .value => s.start care c rest
  | .firstItem => if c == ']' then .ok (s.close (.array []) (s.frames.drop 1), 0) else s.start care c rest
  | .key => s.startKey care c rest
  | .firstKey => if c == '\x7d' then .ok (s.close (.object []) s.frames, 0) else s.startKey care c rest
  | .colon k =>
    if c == ':' then .ok ({ s with expect := .value, frames := .object s.fields k :: s.frames }, 0)
    else .error .malformed
  | .next v =>
    match s.frames with
    | .array items :: frames =>
      if c == ',' then .ok ({ s with expect := .value, frames := .array (v :: items) :: frames }, 0)
      else if c == ']' then .ok (s.close (.array (v :: items).reverse) frames, 0)
      else .error .malformed
    | .object fields k :: frames =>
      if c == ',' then .ok ({ s with expect := .key, fields := (k, v) :: fields, frames }, 0)
      else if c == '\x7d' then .ok (s.close (.object (lastOfEach ((k, v) :: fields))) frames, 0)
      else .error .malformed
    | [] => .error .malformed

-- The value that was read, once nothing is under way.
def result? (s : Machine) : Option Json :=
  match s.expect, s.frames with
  | .next v, [] => some v
  | _, _ => none

-- Reads to the end of the value. Gives the rest of the text.
def run (care : Care) (s : Machine) (cs : List Char) : Except Fault (Json × List Char) :=
  match s.result? with
  | some v => .ok (v, cs)
  | none =>
    match _h : skipSpace cs with
    | [] => .error .cutShort
    | c :: rest =>
      match s.step care c rest with
      | .error e => .error e
      | .ok (s, n) => run care s (rest.drop n)
termination_by cs.length
decreasing_by
  have := length_lt_of_skipSpace _h
  simp only [List.length_drop]
  omega

theorem length_run_le {care : Care} {s : Machine} {cs rest : List Char} {v : Json}
    (h : s.run care cs = .ok (v, rest)) : rest.length ≤ cs.length := by
  fun_induction run care s cs with
  | case1 => simp_all
  | case2 => simp at h
  | case3 => simp at h
  | case4 _ _ _ _ _ hs _ _ _ ih =>
    have := length_lt_of_skipSpace hs
    have := ih h
    simp only [List.length_drop] at this
    omega

end Machine

-- Reads a value inside `depth` brackets. Gives the rest of the text.
def readValue (care : Care) (depth : Nat) (cs : List Char) : Except Fault (Json × List Char) :=
  Machine.run care { depth } cs

end DuplicateBlocks.Json
