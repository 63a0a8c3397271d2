namespace DuplicateBlocks

structure Source where
  id : String
  text : List Char
  deriving DecidableEq, Repr

end DuplicateBlocks
