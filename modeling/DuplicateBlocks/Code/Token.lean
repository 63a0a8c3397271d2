namespace DuplicateBlocks.Code

def isWordChar (c : Char) : Bool :=
  c.isAlphanum || c == '_' || c == '$'

inductive Token where
  | word (cs : List Char)
  | mark (c : Char)
  deriving DecidableEq, Repr

def reserved : List (List Char) :=
  ["abstract", "any", "as", "async", "await", "boolean", "break", "case", "catch", "class", "const",
    "constructor", "continue", "debugger", "declare", "default", "delete", "do", "else", "enum", "export",
    "extends", "false", "finally", "for", "from", "function", "get", "if", "implements", "import", "in",
    "instanceof", "interface", "keyof", "let", "module", "namespace", "never", "new", "null", "number", "of",
    "package", "private", "protected", "public", "readonly", "require", "return", "set", "static", "string",
    "super", "switch", "symbol", "this", "throw", "true", "try", "type", "typeof", "undefined", "unknown",
    "var", "void", "while", "with", "yield"].map String.toList

-- Whether a word is a name that can be replaced: it starts with no digit and is not reserved.
def isName : List Char → Bool
  | [] => false
  | c :: cs => !c.isDigit && !reserved.contains (c :: cs)

namespace Token

def text : Token → List Char
  | word cs => cs
  | mark c => [c]

def spell (ts : List Token) : List Char :=
  ts.flatMap text

def extend (c : Char) : List Token → List Token
  | word cs :: ts => if isWordChar c then word (c :: cs) :: ts else mark c :: word cs :: ts
  | ts => if isWordChar c then word [c] :: ts else mark c :: ts

def ofText (cs : List Char) : List Token :=
  cs.foldr extend []

def name? : Token → Option (List Char)
  | word cs => if isName cs then some cs else none
  | mark _ => none

@[simp]
theorem ofText_nil : ofText [] = [] := rfl

theorem ofText_cons (c : Char) (cs : List Char) : ofText (c :: cs) = extend c (ofText cs) := rfl

theorem spell_extend (c : Char) (ts : List Token) : spell (extend c ts) = c :: spell ts := by
  unfold extend
  split <;> split <;> simp [spell, text]

theorem spell_ofText (cs : List Char) : spell (ofText cs) = cs := by
  induction cs with
  | nil => rfl
  | cons c cs ih => rw [ofText_cons, spell_extend, ih]

end Token
end DuplicateBlocks.Code
