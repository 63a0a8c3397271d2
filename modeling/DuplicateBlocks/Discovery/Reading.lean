import DuplicateBlocks.Discovery.Ledger
import DuplicateBlocks.Discovery.Options
import DuplicateBlocks.Tree.Lookup

namespace DuplicateBlocks.Discovery

-- What was found where a file was expected.
inductive Finding where
  | file (content : List UInt8)
  -- A file that cannot be opened, with its size.
  | shut (size : Nat) (fault : Tree.Fault)
  -- A directory or a link.
  | noFile
  -- A path that cannot be looked up.
  | missing (fault : Tree.Fault)
  deriving DecidableEq, Repr

inductive Skip where
  | overFileBudget
  | notFound
  | permissionDenied
  | unreadable
  | tooLarge
  | overByteBudget
  | binary
  deriving DecidableEq, Repr

namespace Skip

def ofFault : Tree.Fault → Skip
  | .notFound => .notFound
  | .permissionDenied => .permissionDenied
  | _ => .unreadable

-- Without a cause, it is as if something could not be read.
def ofCause (cause : Option Tree.Fault) : Skip :=
  cause.elim unreadable ofFault

end Skip

-- What a path leads to, seen as a file to be read. A link is none.
def Finding.at (top : Tree.Node) (path : String) : Finding :=
  match Tree.find top false path with
  | .ok { node := .file content none, .. } => .file content
  | .ok { node := .file content (some fault), .. } => .shut content.length fault
  | .ok _ => .noFile
  | .error fault => .missing fault

def exceeds (limit : Option Nat) (n : Nat) : Bool :=
  limit.any (· < n)

def Ledger.isFull (l : Ledger) (o : Options) : Bool :=
  o.maxFiles.any (· ≤ l.scanned.toNat)

-- How an attempt to read a part of a file is answered.
inductive Answer where
  | interrupted
  | failed
  -- With so many bytes, but at least one and no more than were asked for, as long as there are any.
  | bytes (count : Nat)
  deriving DecidableEq, Repr

-- How much may be read: of one file and of all, and what has been read of the files before.
structure Allowance where
  fileSize : Option Nat
  total : Option Nat
  used : Tally

namespace Allowance

def portion : Nat := 16 * 1024

def left? (a : Allowance) (taken : Nat) : Option Nat :=
  a.total.map fun most => most - (a.used + .ofNat taken).toNat

-- How many bytes are asked for after so many bytes of a file. A file can grow while it is read, so one byte more than
-- it may have is asked for.
def asked (a : Allowance) (taken : Nat) : Nat :=
  let ofFile := a.fileSize.elim portion fun most => min portion (max 1 ((Tally.ofNat most).succ.toNat - taken))
  (a.left? taken).elim ofFile (min ofFile)

end Allowance

-- A file that is being read: the size it had before, what has been read of it, and what has not.
structure Intake where
  size : Nat
  taken : Array UInt8 := #[]
  rest : List UInt8

namespace Intake

inductive Turn where
  | next (i : Intake)
  | done (verdict : Except Skip (List UInt8))

-- The verdict if nothing may be read any more: a file that has come to its end is read.
def spent? (a : Allowance) (i : Intake) : Option (Except Skip (List UInt8)) :=
  if a.left? i.taken.size = some 0 then
    some (if i.taken.size = i.size then .ok i.taken.toList else .error .overByteBudget)
  else none

-- Takes in some bytes. None at all are the end of the file.
def takeIn (a : Allowance) (i : Intake) (part : List UInt8) : Turn :=
  if part.isEmpty then .done (.ok i.taken.toList)
  else if part.contains 0 then .done (.error .binary)
  else if exceeds a.fileSize (i.taken.size + part.length) then .done (.error .tooLarge)
  else .next { i with taken := i.taken ++ part, rest := i.rest.drop part.length }

-- Makes an attempt unless nothing may be read any more.
def turn (a : Allowance) (i : Intake) (answer : Answer) : Turn :=
  match i.spent? a with
  | some verdict => .done verdict
  | none => match answer with
    | .interrupted => .next i
    | .failed => .done (.error .unreadable)
    | .bytes count => i.takeIn a (i.rest.take (min (max 1 count) (a.asked i.taken.size)))

-- Reads a file by the answers to the attempts. After the last of them, reading fails.
def run (a : Allowance) : List Answer → Intake → Except Skip (List UInt8)
  | [], i => (i.spent? a).getD (.error .unreadable)
  | answer :: answers, i => match i.turn a answer with
    | .done verdict => verdict
    | .next i => run a answers i

end Intake

-- Answers that are enough for a file, each with as much as is asked for.
def Finding.readily : Finding → List Answer
  | .file content => List.replicate (content.length + 1) (.bytes Allowance.portion)
  | _ => []

namespace Ledger

def allowance (l : Ledger) (o : Options) : Allowance :=
  { fileSize := o.maxFileSize, total := o.maxTotalBytes, used := l.bytes }

-- The verdict on a file of so many bytes, which is opened only if it is not too large.
def judgeSize (l : Ledger) (o : Options) (size : Nat) (opened : Except Skip (List UInt8)) :
    Except Skip (List UInt8) :=
  if exceeds o.maxFileSize size then .error .tooLarge
  else if exceeds o.maxTotalBytes (l.bytes + Tally.ofNat size).toNat then .error .overByteBudget
  else opened

-- The bytes of a file that may be read now, or the first reason against it.
def judgeBy (l : Ledger) (answers : List Answer) (o : Options) (found : Finding) : Except Skip (List UInt8) :=
  if l.isFull o then .error .overFileBudget
  else match found with
    | .missing fault => .error (.ofFault fault)
    | .noFile => .error .unreadable
    | .shut size fault => l.judgeSize o size (.error (.ofFault fault))
    | .file content =>
      l.judgeSize o content.length (Intake.run (l.allowance o) answers { size := content.length, rest := content })

def enterSkip (l : Ledger) : Skip → Ledger
  | .overFileBudget => { l with overFileBudget := l.overFileBudget.succ }
  | .notFound => { l with notFound := l.notFound.succ }
  | .permissionDenied => { l with permissionDenied := l.permissionDenied.succ }
  | .unreadable => { l with walkErrors := l.walkErrors.succ }
  | .tooLarge => { l with tooLarge := l.tooLarge.succ }
  | .overByteBudget => { l with overByteBudget := l.overByteBudget.succ }
  | .binary => { l with binary := l.binary.succ }

def enterRead (l : Ledger) (size : Nat) : Ledger :=
  { l with scanned := l.scanned.succ, bytes := l.bytes + Tally.ofNat size }

-- Reads what was found by the answers: its text if it may be read, and the ledger afterwards.
def readBy (l : Ledger) (answers : List Answer) (o : Options) (found : Finding) : Option (List Char) × Ledger :=
  match l.judgeBy answers o found with
  | .error skip => (none, l.enterSkip skip)
  | .ok content => (some (Text.Utf8.decodeLossy content), l.enterRead content.length)

def judge (l : Ledger) (o : Options) (found : Finding) : Except Skip (List UInt8) :=
  l.judgeBy found.readily o found

-- Reads what was found, every attempt being answered.
def read (l : Ledger) (o : Options) (found : Finding) : Option (List Char) × Ledger :=
  l.readBy found.readily o found

end Ledger
end DuplicateBlocks.Discovery
