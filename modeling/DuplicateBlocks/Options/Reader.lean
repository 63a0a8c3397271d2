import DuplicateBlocks.Json.Reader
import DuplicateBlocks.Options.Raw

namespace DuplicateBlocks.Options

open Json (Fault skipSpace)

-- Reads the value of a field after its key. Options are read in full; other values only for their form.
def readFieldValue (key : Option Key) (cs : List Char) : Except Fault (Json × List Char) :=
  match skipSpace cs with
  | [] => .error .cutShort
  | ':' :: rest => Json.readValue (if key.isSome then .strict else .loose) 1 rest
  | _ => .error .malformed

-- Reads a field after the opening quote of its key. An option must not be given twice.
def readField (found : List (Key × Json)) (cs : List Char) : Except Fault (List (Key × Json) × List Char) := do
  let (name, n) ← Json.readString .strict [] 0 cs
  let key := Key.ofName? name
  if found.any fun f => some f.1 == key then .error .mismatch
  let (v, rest) ← readFieldValue key (cs.drop n)
  return ((key.map (·, v)).toList ++ found, rest)

theorem length_readField_le {found fields : List (Key × Json)} {cs rest : List Char}
    (h : readField found cs = .ok (fields, rest)) : rest.length ≤ cs.length := by
  simp only [readField, bind, Except.bind, pure, Except.pure] at h
  split at h
  · cases h
  · rename_i p _
    split at h
    · cases h
    · split at h
      · cases h
      · rename_i q hq
        injection h with h
        injection h with _ h
        subst h
        have hdrop := List.length_drop (i := p.2) (l := cs)
        simp only [readFieldValue] at hq
        split at hq
        · cases hq
        · rename_i hs
          have h1 := Json.length_lt_of_skipSpace hs
          have h2 := Json.Machine.length_run_le hq
          omega
        · cases hq

def readFields (first : Bool) (found : List (Key × Json)) (cs : List Char) :
    Except Fault (List (Key × Json) × List Char) :=
  match _h : skipSpace cs with
  | [] => .error .cutShort
  | c :: rest =>
    if c == '\x7d' then .ok (found, rest)
    else if first then
      if c == '"' then
        match _hf : readField found rest with
        | .error e => .error e
        | .ok (found, rest) => readFields false found rest
      else .error .malformed
    else if c == ',' then
      match _hk : skipSpace rest with
      | [] => .error .cutShort
      | '"' :: rest =>
        match _hf : readField found rest with
        | .error e => .error e
        | .ok (found, rest) => readFields false found rest
      | _ => .error .malformed
    else .error .malformed
termination_by cs.length
decreasing_by
  · have := Json.length_lt_of_skipSpace _h
    have := length_readField_le _hf
    omega
  · have := Json.length_lt_of_skipSpace _h
    have := Json.length_lt_of_skipSpace _hk
    have := length_readField_le _hf
    omega

-- Reads the values of an array, one for each key. Too few are of the wrong kind, too many are no JSON for it.
def readItems (first : Bool) (found : List (Key × Json)) : List Key → List Char →
    Except Fault (List (Key × Json) × List Char)
  | [], cs =>
    match skipSpace cs with
    | [] => .error .cutShort
    | ']' :: rest => .ok (found, rest)
    | _ => .error .malformed
  | key :: keys, cs => do
    let start ← match skipSpace cs with
      | [] => .error .cutShort
      | ']' :: _ => .error .mismatch
      | c :: rest => if first then .ok (c :: rest) else if c == ',' then .ok rest else .error .malformed
    let (v, rest) ← Json.readValue .strict 1 start
    readItems false ((key, v) :: found) keys rest

-- Reads options; nothing but space may follow them.
def Raw.read (text : List Char) : Except Fault Raw := do
  let (fields, rest) ← match skipSpace text with
    | [] => .error .cutShort
    | '\x7b' :: rest => readFields true [] rest
    | '[' :: rest => readItems true [] Key.all rest
    | c :: rest => match Json.readScalar .strict c rest with
      | .error e => .error e
      | .ok _ => .error .mismatch
  if (skipSpace rest).isEmpty then return Raw.ofFields fields else .error .malformed

end DuplicateBlocks.Options
