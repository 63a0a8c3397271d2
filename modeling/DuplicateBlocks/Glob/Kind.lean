import DuplicateBlocks.Glob.Basic

namespace DuplicateBlocks.Glob

inductive Kind where
  -- A certain name in any directory.
  | name
  -- A certain text, or one at the end or at the front of a path.
  | text
  -- Any name with a certain extension, in any directory.
  | extension
  -- Whatever an expression says; it may say with which extension a path ends.
  | expression (fixesExtension : Bool)
  deriving DecidableEq, Repr

def Token.char? : Token → Option Char
  | .literal c => some c
  | _ => none

def plainText? (glob : List Token) : Option (List Char) :=
  glob.mapM Token.char?

-- A character that is neither before an extension nor before a name.
def isInner (c : Char) : Bool :=
  c != '.' && c != '/'

-- Whether a glob ends in literals with a dot among them and no slash after it.
def fixesExtension (glob : List Token) : Bool :=
  let front := glob.reverse.dropWhile fun t => t.char?.any isInner
  front.head?.bind Token.char? == some '.'

-- Whether a glob is a star and an extension.
def isStarExtension : List Token → Bool
  | .star :: .literal '.' :: rest => (plainText? rest).any (·.all isInner)
  | _ => false

-- Whether a glob is a text and all below it.
def isFront (glob : List Token) : Bool :=
  match glob.reverse with
  | .trailing :: front => (plainText? front).isSome
  | _ => false

def kind : List Token → Kind
  | [] => .expression false
  | .leading :: rest => match plainText? rest with
    | some [] => .expression false
    | some text => if text.contains '/' then .text else .name
    | none => if isStarExtension rest then .extension else .expression (fixesExtension rest)
  | glob =>
    if (plainText? glob).isSome || isFront glob then .text else .expression (fixesExtension glob)

-- Whether globs of a kind are matched by the last name in a path.
def Kind.asksForName : Kind → Bool
  | name => true
  | text => false
  | extension => true
  | expression fixesExtension => fixesExtension

def dot : UInt8 := 46

def endsInName (path : List UInt8) : Bool :=
  path.reverse.takeWhile (· != slash) != [dot, dot]

def covers (glob : List Token) (path : List UInt8) : Bool :=
  (endsInName path || !(kind glob).asksForName) && accepts glob path

theorem covers_eq_accepts (glob : List Token) {path : List UInt8} (h : endsInName path) :
    covers glob path = accepts glob path := by
  simp [covers, h]

end DuplicateBlocks.Glob
